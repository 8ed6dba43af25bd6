import CalendarQuery.Comparison
import CalendarQuery.Property.Path.Reader
import CalendarQuery.Text.Slashed
import CalendarQuery.Time.Stamp.Reader

/-!
# Reading comparisons

A comparison is a property path, an operator and an operand whose form depends on both.

* `Comparator.read`: the operator.
* `Comparison.readWords`: a quoted text or a list of them.
* `Comparison.read`: the comparison that starts with a given lexeme.
* `Comparison.keeps_read`: a comparison leaves no more than it found.
* `Comparison.token_of_read`: the end of the expression starts none.
-/

namespace CalendarQuery

open Reader

namespace Comparator

/-- The operators that are words, letter case ignored. -/
def ofWord? (word : String) : Option Comparator :=
  [isDefined, notDefined, inTimeRange, startsWith, indexed].find? fun c =>
    Text.sameName word c.symbol

/-- One of two operators, the second if an equals sign follows. -/
def readOrEqual (plain orEqual : Comparator) : Reader Comparator := do
  if ← accept '=' then return orEqual else return plain

/-- The operator after an exclamation mark. -/
def readNegated : Reader Comparator := do
  let lexeme ← next
  match lexeme.token with
  | .symbol '=' => return notEqual
  | .symbol '~' => return notLike
  | _ => fail (.unexpected lexeme .afterBang)

/-- The operator of a comparison. -/
def read : Reader Comparator := do
  let lexeme ← next
  match lexeme.token with
  | .symbol '=' => return equal
  | .symbol '~' => return like
  | .symbol '!' => readNegated
  | .symbol '>' => readOrEqual greaterThan greaterThanOrEqual
  | .symbol '<' => readOrEqual lessThan lessThanOrEqual
  | .word word =>
    match ofWord? word with
    | some c => return c
    | none => fail (.unexpected lexeme .comparator)
  | _ => fail (.unexpected lexeme .comparator)

theorem keeps_readOrEqual (c d : Comparator) : Keeps (readOrEqual c d) :=
  (Keeps.accept '=').bind fun b => by split <;> exact Keeps.pure _

theorem keeps_readNegated : Keeps readNegated :=
  Keeps.next.bind fun x => by
    split
    · exact Keeps.pure _
    · exact Keeps.pure _
    · exact Keeps.fail _

theorem keeps_read : Keeps read :=
  Keeps.next.bind fun x => by
    split
    · exact Keeps.pure _
    · exact Keeps.pure _
    · exact keeps_readNegated
    · exact keeps_readOrEqual _ _
    · exact keeps_readOrEqual _ _
    · split
      · exact Keeps.pure _
      · exact Keeps.fail _
    · exact Keeps.fail _

end Comparator

namespace Comparison

/-! ## Operands -/

/-- A quoted text. -/
def readText : Reader String := do
  let lexeme ← next
  match lexeme.token with
  | .quoted text => return text
  | _ => fail (.unexpected lexeme .quotedText)

/-- A quoted text or a number. -/
def readOperand : Reader Operand := do
  let lexeme ← next
  match lexeme.token with
  | .quoted text => return .text text
  | .number n => return .number n
  | _ => fail (.unexpected lexeme .operand)

/-- The first word of a list, after its opening parenthesis. -/
def readFirstWord : Reader String := do
  let lexeme ← next
  match lexeme.token with
  | .quoted word => return word
  | .symbol ')' => fail (.badList .empty)
  | .eof => fail (.badList .unclosed)
  | _ => fail (.unexpected lexeme .quotedText)

/-- A word of a list, after a comma. -/
def readFurtherWord : Reader String := do
  let lexeme ← next
  match lexeme.token with
  | .quoted word => return word
  | .eof => fail (.badList .unclosed)
  | _ => fail (.unexpected lexeme .quotedText)

/-- A comma and the word after it, or the closing parenthesis. -/
def readListItem : Reader (Option String) := do
  let separator ← next
  match separator.token with
  | .symbol ',' => return some (← readFurtherWord)
  | .symbol ')' => return none
  | .eof => fail (.badList .unclosed)
  | _ => fail (.unexpected separator .listSeparator)

theorem keeps_readFurtherWord : Keeps readFurtherWord :=
  Keeps.next.bind fun x => by
    split
    · exact Keeps.pure _
    · exact Keeps.fail _
    · exact Keeps.fail _

/-- What follows the separator of a list. -/
private theorem keeps_listItem_cont (x : Lexeme) :
    Keeps (match x.token with
      | .symbol ',' => do return some (← readFurtherWord)
      | .symbol ')' => return none
      | .eof => fail (.badList .unclosed)
      | _ => fail (.unexpected x .listSeparator)) := by
  split
  · exact keeps_readFurtherWord.bind fun _ => Keeps.pure _
  · exact Keeps.pure _
  · exact Keeps.fail _
  · exact Keeps.fail _

theorem keeps_readListItem : Keeps readListItem := Keeps.next.bind keeps_listItem_cont

theorem takes_readListItem : TakesSome readListItem :=
  TakesSome.next_bind keeps_listItem_cont fun x _ _ _ he => by simp [he, fail]

/-- A quoted text, or a list of them in parentheses. -/
def readWords : Reader (List String) := do
  let opening ← next
  match opening.token with
  | .quoted word => return [word]
  | .symbol '(' => do
    let first ← readFirstWord
    let others ← many readListItem takes_readListItem
    return first :: others
  | _ => fail (.unexpected opening .quotedTextOrList)

/-- The instant a bound of a time range spells; blanks alone spell an open bound. -/
def boundOfText (text : String) : Except QueryError (Option Stamp) :=
  let cs := Text.trim text.toList
  if cs.isEmpty then .ok none
  else match Stamp.ofBound? cs with
    | some t => .ok (some t)
    | none => .error (.badDateTime (String.ofList cs))

/-- A bound of a time range, if a quoted text comes next. -/
def readBound : Reader (Option Stamp) := do
  let lexeme ← peek
  match lexeme.token with
  | .quoted text =>
    let _ ← next
    match boundOfText text with
    | .ok bound => return bound
    | .error cause => fail cause
  | _ => return none

/-- The bounds of a time range and the word between them; one bound must be there. -/
def readTimeRange (path : PropertyPath) : Reader Filter := do
  let first ← readBound
  let separator ← next
  if separator.token.isKeyword "to" then
    let last ← readBound
    if first.isNone && last.isNone then fail .emptyTimeRange
    else return .timeRange path first last
  else fail (.unexpected separator .rangeSeparator)

/-! ## Comparisons by property -/

/-- Any operator but the given ones is refused. -/
def require (allowed : List Comparator) (operator : Comparator) (path : PropertyPath) :
    Reader Unit :=
  if allowed.contains operator then return () else fail (.unsupportedOperator operator path)

/-- The comparison of a path with an operand, if the operator compares operands of that kind. -/
def ofOperand (path : PropertyPath) (operator : Comparator) (operand : Operand) :
    Except QueryError Filter :=
  match operator.takesOperand, operand with
  | false, _ => .error (.unsupportedOperator operator path)
  | true, .number _ =>
    if operator.isCaseless || operator.isPrefix then .error (.unsupportedOperator operator path)
    else .ok (.comparison path operator operand)
  | true, .text _ => .ok (.comparison path operator operand)

/-- The group of comparisons with each word of a list. -/
def eachWord (path : PropertyPath) (operator : Comparator) (words : List String) :
    Except QueryError Filter :=
  match Filter.all? (words.map fun w => .comparison path operator (.text w)) with
  | some f => .ok f
  | none => .error (.badList .empty)

/-- The kind of entity, by its quoted name. -/
def readEntity (path : PropertyPath) (operator : Comparator) : Reader Comparison := do
  require [.equal] operator path
  let name ← readText
  match EntityKind.ofName? name with
  | some kind => return .direct (.entity kind)
  | none => fail (.unknownEntity name)

/-- Categories by uid, by href, or by name; a name that starts with a slash is an href. -/
def readCategories (path : PropertyPath) (operator : Comparator) : Reader Comparison := do
  require [.equal, .notEqual] operator path
  if path.isExactly [.categories, .uid] then
    return .categoryUids path operator (← readWords)
  else if path.isExactly [.categories, .href] then
    match eachWord path operator (← readWords) with
    | .ok f => return .direct f
    | .error cause => fail cause
  else if path.depth > 1 then fail (.unsupportedOperator operator path)
  else
    let name ← readText
    if Text.isAbsolute name then
      return .direct (.comparison (.pair .categories .href) operator (.text name))
    else return .categoryName operator name

/-- The comparison of a path under an operator, with the operand that both ask for. -/
def readAfter (path : PropertyPath) (operator : Comparator) : Reader Comparison :=
  match operator, path.first with
  | .isDefined, _ => return .direct (.presence path true)
  | .notDefined, _ => return .direct (.presence path false)
  | .inTimeRange, _ => return .direct (← readTimeRange path)
  | _, .entityType => readEntity path operator
  | _, .view => do
    require [.equal] operator path
    return .views (← readWords)
  | _, .vpath => do
    require [.equal] operator path
    return .virtualPaths (← readWords)
  | _, .collection => do
    require [.equal] operator path
    return .collectionPaths (← readWords)
  | _, .categories => readCategories path operator
  | _, _ => do
    match ofOperand path operator (← readOperand) with
    | .ok f => return .direct f
    | .error cause => fail cause

/-- The comparison that starts with the given lexeme. -/
def read (first : Lexeme) : Reader Comparison := do
  let path ← PropertyPath.read first
  let operator ← Comparator.read
  readAfter path operator

/-! ## What a comparison takes -/

theorem keeps_readText : Keeps readText :=
  Keeps.next.bind fun x => by
    split
    · exact Keeps.pure _
    · exact Keeps.fail _

theorem keeps_readOperand : Keeps readOperand :=
  Keeps.next.bind fun x => by
    split
    · exact Keeps.pure _
    · exact Keeps.pure _
    · exact Keeps.fail _

theorem keeps_readFirstWord : Keeps readFirstWord :=
  Keeps.next.bind fun x => by
    split
    · exact Keeps.pure _
    · exact Keeps.fail _
    · exact Keeps.fail _
    · exact Keeps.fail _

theorem keeps_readWords : Keeps readWords :=
  Keeps.next.bind fun x => by
    split
    · exact Keeps.pure _
    · exact keeps_readFirstWord.bind fun _ => (Keeps.many keeps_readListItem).bind fun _ =>
        Keeps.pure _
    · exact Keeps.fail _

theorem keeps_readBound : Keeps readBound :=
  Keeps.peek.bind fun x => by
    split
    · exact Keeps.next.bind fun _ => by
        split
        · exact Keeps.pure _
        · exact Keeps.fail _
    · exact Keeps.pure _

theorem keeps_readTimeRange (path : PropertyPath) : Keeps (readTimeRange path) :=
  keeps_readBound.bind fun _ => Keeps.next.bind fun x => by
    split
    · exact keeps_readBound.bind fun _ => by
        split
        · exact Keeps.fail _
        · exact Keeps.pure _
    · exact Keeps.fail _

theorem keeps_require (allowed : List Comparator) (operator : Comparator) (path : PropertyPath) :
    Keeps (require allowed operator path) := by
  unfold require; split
  · exact Keeps.pure _
  · exact Keeps.fail _

theorem keeps_readCategories (path : PropertyPath) (operator : Comparator) :
    Keeps (readCategories path operator) :=
  (keeps_require _ _ _).bind fun _ => by
    split
    · exact keeps_readWords.bind fun _ => Keeps.pure _
    · split
      · exact keeps_readWords.bind fun _ => by
          split
          · exact Keeps.pure _
          · exact Keeps.fail _
      · split
        · exact Keeps.fail _
        · exact keeps_readText.bind fun _ => by
            split
            · exact Keeps.pure _
            · exact Keeps.pure _

theorem keeps_readAfter (path : PropertyPath) (operator : Comparator) :
    Keeps (readAfter path operator) := by
  unfold readAfter
  split
  · exact Keeps.pure _
  · exact Keeps.pure _
  · exact (keeps_readTimeRange _).bind fun _ => Keeps.pure _
  · exact (keeps_require _ _ _).bind fun _ => keeps_readText.bind fun _ => by
      split
      · exact Keeps.pure _
      · exact Keeps.fail _
  · exact (keeps_require _ _ _).bind fun _ => keeps_readWords.bind fun _ => Keeps.pure _
  · exact (keeps_require _ _ _).bind fun _ => keeps_readWords.bind fun _ => Keeps.pure _
  · exact (keeps_require _ _ _).bind fun _ => keeps_readWords.bind fun _ => Keeps.pure _
  · exact keeps_readCategories _ _
  · exact keeps_readOperand.bind fun _ => by
      split
      · exact Keeps.pure _
      · exact Keeps.fail _

theorem keeps_read (first : Lexeme) : Keeps (read first) :=
  (PropertyPath.keeps_read first).bind fun _ => Comparator.keeps_read.bind fun _ =>
    keeps_readAfter _ _

/-- A comparison starts with a word, so the end of the expression starts none. -/
theorem token_of_read {first : Lexeme} {l l' : Lexer} {c : Comparison}
    (h : read first l = .ok (c, l')) : first.token ≠ .eof := by
  intro he
  obtain ⟨path, l₁, h₁, -⟩ := bind_eq_ok.mp h
  simp [PropertyPath.read, he, fail] at h₁

end Comparison

end CalendarQuery
