import CalendarQuery.Filter
import CalendarQuery.Token

/-!
# Why a query does not compile

`QueryError` lists the causes, `QueryError.message` words them. Causes carry values, not texts: the
token that was found, what was expected instead, the operator that is not supported.
-/

namespace CalendarQuery

/-- Why the hierarchy gives no answer. -/
inductive LookupError
  /-- The store behind the hierarchy failed. -/
  | backend (reason : String)
  /-- A chain of aliases comes back to the alias at `path`. -/
  | aliasCycle (path : String)
  /-- The path cannot name a collection. -/
  | invalidPath (path : String)
  deriving DecidableEq, Repr

namespace LookupError

/-- The wording. -/
def message : LookupError → String
  | backend reason => "hierarchy backend error: " ++ reason
  | aliasCycle path => "alias cycle through '" ++ path ++ "'"
  | invalidPath path => "invalid collection path '" ++ path ++ "'"

end LookupError

/-- What a reader would have accepted. -/
inductive Expected
  | propertyName | propertyNameAfterDot | subProperty | index | closingBracket
  | comparator | afterBang | quotedText | quotedTextOrList | listSeparator | operand
  | rangeSeparator | operatorOrEnd | operatorOrClosing | direction | sortSeparator
  deriving DecidableEq, Repr

namespace Expected

/-- The wording. -/
def text : Expected → String
  | propertyName => "property name"
  | propertyNameAfterDot => "property name after '.'"
  | subProperty => "a sub-property such as 'utc', 'tzid' or 'cn'"
  | index => "number or quoted key inside '[ ]'"
  | closingBracket => "']'"
  | comparator => "comparison operator"
  | afterBang => "'=' or '~' after '!'"
  | quotedText => "quoted string"
  | quotedTextOrList => "quoted string or '('"
  | listSeparator => "',' or ')'"
  | operand => "quoted string or number"
  | rangeSeparator => "'to'"
  | operatorOrEnd => "'&', '|' or end of expression"
  | operatorOrClosing => "'&', '|' or ')'"
  | direction => "'asc' or 'desc'"
  | sortSeparator => "',' or end of sort expression"

end Expected

/-- What a reader found instead. -/
inductive Found
  | token (token : Token)
  /-- A known property where it may not stand, as it was spelled. -/
  | property (spelling : String)
  deriving DecidableEq, Repr

namespace Found

/-- The wording. -/
def text : Found → String
  | token t => t.describe
  | property spelling => "property '" ++ spelling ++ "'"

end Found

/-- What is wrong with a list of words. -/
inductive ListFault
  | empty | unclosed
  deriving DecidableEq, Repr

namespace ListFault

/-- The wording. -/
def text : ListFault → String
  | empty => "empty list"
  | unclosed => "missing ')'"

end ListFault

/-- Why an expression does not compile. -/
inductive QueryError
  /-- The expression has more bytes than the limit. -/
  | tooLong (length limit : Nat)
  /-- The quote at `position` opens a text that never ends. -/
  | unterminatedText (position : Nat)
  | unexpectedToken (found : Found) (expected : Expected) (position : Nat)
  | unexpectedEnd (expected : Expected)
  | unbalancedParentheses
  /-- Both logical operators stand at one nesting level. -/
  | mixedOperators
  | nestingTooDeep (limit : Nat)
  /-- The parser's stacks do not fit together. -/
  | invalidExpression
  | unknownProperty (name : String) (suggestion : Option String)
  | pathTooDeep (path : String) (allowed : Nat)
  /-- A part of a property stands where a property is needed. -/
  | notTopLevel (property : Property)
  /-- A segment other than the first has an index. -/
  | indexNotAllowed
  | unsupportedOperator (operator : Comparator) (path : PropertyPath)
  | unknownEntity (name : String)
  | badDateTime (text : String)
  /-- A time range has neither bound. -/
  | emptyTimeRange
  | badList (fault : ListFault)
  /-- No category has the uid. -/
  | missingCategory (uid : String)
  /-- No category has the name. -/
  | unknownCategory (name : String)
  | unknownView (name : String)
  /-- The view has no collections. -/
  | emptyView (name : String)
  /-- The virtual path reaches no calendar or folder. -/
  | badVpath (path : String)
  /-- The path is reached again while it is resolved. -/
  | aliasCycle (path : String)
  | aliasDepthExceeded (limit : Nat)
  /-- The filter attached to the collection at `owner` does not compile. -/
  | nested (owner : String) (inner : QueryError)
  | lookup (cause : LookupError)
  deriving DecidableEq, Repr

namespace QueryError

/-- The wording. -/
def message : QueryError → String
  | tooLong length limit =>
    "expression is " ++ toString length ++ " bytes, limit is " ++ toString limit
  | unterminatedText position =>
    "unterminated quoted string starting at position " ++ toString position
  | unexpectedToken found expected position =>
    "unexpected " ++ found.text ++ " at position " ++ toString position ++ ", expected " ++
      expected.text
  | unexpectedEnd expected => "unexpected end of expression, expected " ++ expected.text
  | unbalancedParentheses => "unbalanced parentheses"
  | mixedOperators => "mixed logical operators: use parentheses to combine '&' and '|'"
  | nestingTooDeep limit =>
    "expression nested more than " ++ toString limit ++ " parentheses deep"
  | invalidExpression => "invalid expression"
  | unknownProperty name (some s) =>
    "unknown property '" ++ name ++ "'. Did you mean '" ++ s ++ "'?"
  | unknownProperty name none => "unknown property '" ++ name ++ "'"
  | pathTooDeep path allowed =>
    "property path '" ++ path ++ "' is too deep (at most " ++ toString allowed ++
      " segment(s) allowed)"
  | notTopLevel property =>
    "property '" ++ property.spelling ++ "' can only follow another property, as in 'dtstart." ++
      property.spelling ++ "'"
  | indexNotAllowed => "only the first segment of a property path may be indexed"
  | unsupportedOperator operator path =>
    "operator '" ++ operator.symbol ++ "' is not supported for property '" ++ path.text ++ "'"
  | unknownEntity name => "unknown entity type: " ++ name
  | badDateTime text => "invalid date-time '" ++ text ++ "' in time range"
  | emptyTimeRange => "time range must have a start or an end"
  | badList fault => "malformed word list: " ++ fault.text
  | missingCategory uid => "filter references missing category with uid '" ++ uid ++ "'"
  | unknownCategory name => "unknown category '" ++ name ++ "'"
  | unknownView name => "unknown view '" ++ name ++ "'"
  | emptyView name => "view '" ++ name ++ "' has no collections"
  | badVpath path => "bad vpath '" ++ path ++ "': no calendar collection"
  | aliasCycle path => "alias cycle detected at '" ++ path ++ "'"
  | aliasDepthExceeded limit =>
    "alias filters nested more than " ++ toString limit ++ " levels deep"
  | nested owner inner => "in filter attached to '" ++ owner ++ "': " ++ inner.message
  | lookup cause => "lookup failed: " ++ cause.message

/-- The lexeme is not what was expected; the end of the expression has a cause of its own. -/
def unexpected (lexeme : Lexeme) (expected : Expected) : QueryError :=
  match lexeme.token with
  | .eof => unexpectedEnd expected
  | t => unexpectedToken (.token t) expected lexeme.position

end QueryError

end CalendarQuery
