import CalendarQuery.Property.Path
import CalendarQuery.Token.Reader

/-!
# Reading property paths

A path is a property with an optional index and, after dots, further properties without index.
How deep it may be depends on its first property.

* `PropertyPath.read`: the path that starts with a given lexeme.
-/

namespace CalendarQuery

open Reader

namespace Property

/-- The property a word names. -/
def lookup (word : String) : Except QueryError Property :=
  match ofName? word with
  | some p => .ok p
  | none => .error (.unknownProperty word (suggest word))

/-- The word that stands for the uid of a category, as a whole path. -/
def categoryUidWord : String := "catuid"

end Property

namespace PathSegment

/-- The segment of a property with a number or a quoted key as its index. -/
def readIndexed (p : Property) : Reader PathSegment := do
  let index ← next
  match index.token with
  | .number n => return ⟨p, some n, none⟩
  | .quoted key => return ⟨p, none, some key⟩
  | _ => fail (.unexpected index .index)

/-- The index of a segment after its opening bracket, and the closing bracket. -/
def readIndex (p : Property) : Reader PathSegment := do
  let segment ← readIndexed p
  let closing ← next
  if closing.token.isSymbol ']' then return segment
  else fail (.unexpected closing .closingBracket)

/-- The first segment of a path, of the given word: any property but a part of one. -/
def readFirst (word : String) : Reader PathSegment :=
  match Property.lookup word with
  | .error cause => fail cause
  | .ok p =>
    if p.isSub then fail (.notTopLevel p)
    else do
      if ← accept '[' then readIndex p else return .plain p

/-- A segment after a dot: a property that may follow, without index. -/
def readFollowing : Reader PathSegment := do
  let lexeme ← next
  match lexeme.token with
  | .word word =>
    match Property.lookup word with
    | .error cause => fail cause
    | .ok p =>
      if p.mayFollow then
        if (← peek).token.isSymbol '[' then fail .indexNotAllowed
        else return .plain p
      else fail (.unexpectedToken (.property word) .subProperty lexeme.position)
  | _ => fail (.unexpected lexeme .propertyNameAfterDot)

/-- A dot and the segment after it, if there is a dot. -/
def readDotted : Reader (Option PathSegment) := do
  if ← accept '.' then return some (← readFollowing) else return none

theorem keeps_readFollowing : Keeps readFollowing :=
  Keeps.next.bind fun x => by
    split
    · split
      · exact Keeps.fail _
      · split
        · exact Keeps.peek.bind fun y => by
            split
            · exact Keeps.fail _
            · exact Keeps.pure _
        · exact Keeps.fail _
    · exact Keeps.fail _

theorem keeps_readDotted : Keeps readDotted :=
  (Keeps.accept '.').bind fun b => by
    split
    · exact keeps_readFollowing.bind fun _ => Keeps.pure _
    · exact Keeps.pure _

theorem takes_readDotted : TakesSome readDotted := fun l l' s h => by
  obtain ⟨b, l₁, h₁, h₂⟩ := bind_eq_ok.mp h
  cases b with
  | true =>
    exact Nat.lt_of_le_of_lt
      ((keeps_readFollowing.bind fun _ => Keeps.pure _) _ _ _ h₂) (size_accept h₁)
  | false => obtain ⟨h₃, -⟩ := pure_eq_ok.mp h₂; simp at h₃

theorem keeps_readIndex (p : Property) : Keeps (readIndex p) :=
  Keeps.bind (Keeps.next.bind fun x => by
    split
    · exact Keeps.pure _
    · exact Keeps.pure _
    · exact Keeps.fail _) fun s => Keeps.next.bind fun y => by
    split
    · exact Keeps.pure _
    · exact Keeps.fail _

theorem keeps_readFirst (word : String) : Keeps (readFirst word) := by
  unfold readFirst
  split
  · exact Keeps.fail _
  · split
    · exact Keeps.fail _
    · refine (Keeps.accept '[').bind fun b => ?_
      split
      · exact keeps_readIndex _
      · exact Keeps.pure _

end PathSegment

namespace PropertyPath

/-- The path if it is not too deep for its first property. -/
def checkDepth (path : PropertyPath) : Except QueryError PropertyPath :=
  if path.depth ≤ path.first.maxDepth then .ok path
  else .error (.pathTooDeep path.text path.first.maxDepth)

/-- The path that starts with the given lexeme. -/
def read (first : Lexeme) : Reader PropertyPath :=
  match first.token with
  | .word word =>
    if Text.sameName word Property.categoryUidWord then do
      if (← peek).token.isSymbol '.' then fail (.pathTooDeep Property.categoryUidWord 1)
      else return pair .categories .uid
    else do
      let head ← PathSegment.readFirst word
      let tail ← many PathSegment.readDotted PathSegment.takes_readDotted
      match checkDepth ⟨head, tail⟩ with
      | .ok path => return path
      | .error cause => fail cause
  | _ => fail (.unexpected first .propertyName)

theorem keeps_read (first : Lexeme) : Keeps (read first) := by
  unfold read
  split
  · split
    · refine Keeps.peek.bind fun x => ?_
      split
      · exact Keeps.fail _
      · exact Keeps.pure _
    · refine (PathSegment.keeps_readFirst _).bind fun s => ?_
      refine (Keeps.many PathSegment.keeps_readDotted).bind fun ss => ?_
      split
      · exact Keeps.pure _
      · exact Keeps.fail _
  · exact Keeps.fail _

end PropertyPath

end CalendarQuery
