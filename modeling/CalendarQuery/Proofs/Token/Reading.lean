import CalendarQuery.Proofs.Token.Stream
import CalendarQuery.Token.Reader

/-!
# What readers give and why they fail

A `Reading` says what is known of a lexer, of the lexemes that it delivers and of the causes of
failures. A reader obeys it if, started from such a lexer, it gives values of a kind and leaves such
a lexer, or fails with such a cause.

* `Reading.Lawful`: the operations of the lexer, and the causes made of lexemes, keep to it.
* `Reader.Obeys`: the judgment, with one rule for each way in which readers are made.
* `Reading.quoting`: the reading that knows which quoted texts are to come.
-/

namespace CalendarQuery

namespace QueryError

/-- The cause neither tells of a place of the expression, nor of the parser's stacks, nor of a
filter attached to a collection. -/
def isPlaceless : QueryError → Bool
  | .unterminatedText _ | .unexpectedToken .. | .unexpectedEnd _ | .invalidExpression
  | .aliasDepthExceeded _ | .nested .. => false
  | _ => true

/-- The cause tells of a token of the expression, or of its end. -/
def tellsOfToken : QueryError → Bool
  | .unterminatedText _ | .unexpectedToken .. | .unexpectedEnd _ => true
  | _ => false

theorem tellsOfToken_of_isPlaceless {cause : QueryError} (h : cause.isPlaceless = true) :
    cause.tellsOfToken = false := by
  cases cause <;> simp_all [isPlaceless, tellsOfToken]

end QueryError

/-- The word names a property that may not stand behind a dot. -/
def Property.Misplaced (word : String) : Prop :=
  ∃ p, Property.ofName? word = some p ∧ p.mayFollow = false

/-- What is known while an expression is read. -/
structure Reading where
  lexer : Lexer → Prop
  lexeme : Lexeme → Prop
  cause : QueryError → Prop

namespace Reading

/-- The operations of a lexer keep to what is known, and so do the causes of a reader. -/
structure Lawful (K : Reading) : Prop where
  next : ∀ {l l' : Lexer} {x : Lexeme}, K.lexer l → l.next = .ok (x, l') →
    K.lexeme x ∧ K.lexer l'
  pushBack : ∀ {l l' : Lexer} {x : Lexeme}, K.lexer l → l.next = .ok (x, l') →
    K.lexer (l'.pushBack x)
  unread : ∀ {l : Lexer} {cause : QueryError}, K.lexer l → l.next = .error cause → K.cause cause
  unexpected : ∀ {x : Lexeme} (expected : Expected), K.lexeme x → K.cause (.unexpected x expected)
  misplaced : ∀ {x : Lexeme} {word : String} (expected : Expected), K.lexeme x →
    x.token = .word word → Property.Misplaced word →
    K.cause (.unexpectedToken (.property word) expected x.position)
  placeless : ∀ {cause : QueryError}, cause.isPlaceless = true → K.cause cause

/-- A quoted text that comes as a lexeme. -/
def Word (K : Reading) (word : String) : Prop := ∃ position, K.lexeme ⟨.quoted word, position⟩

end Reading

namespace Reader

variable {K : Reading} {α β : Type} {V : α → Prop} {W : β → Prop}

theorem bind_eq_error {r : Reader α} {f : α → Reader β} {l : Lexer} {cause : QueryError} :
    (r >>= f) l = .error cause ↔
      r l = .error cause ∨ ∃ a l₁, r l = .ok (a, l₁) ∧ f a l₁ = .error cause := by
  simp only [bind, StateT.bind, Except.bind]
  rcases r l with cause' | ⟨a, l₁⟩
  · simp
  · constructor
    · exact fun h => .inr ⟨a, l₁, rfl, h⟩
    · rintro (h | ⟨_, _, h, h'⟩)
      · cases h
      · cases h
        exact h'

/-- Where the reading holds of the lexer, the reader gives values of the kind `V` and leaves such a
lexer, or fails with a cause of the reading. -/
def Obeys (K : Reading) (V : α → Prop) (r : Reader α) : Prop :=
  ∀ l, K.lexer l → (∀ a l', r l = .ok (a, l') → V a ∧ K.lexer l') ∧
    ∀ cause, r l = .error cause → K.cause cause

namespace Obeys

theorem pure {a : α} (h : V a) : Obeys K V (Pure.pure a) := by
  intro l hl
  refine ⟨fun b l' hb => ?_, fun cause hcause => (by cases hcause)⟩
  obtain ⟨rfl, rfl⟩ := pure_eq_ok.mp hb
  exact ⟨h, hl⟩

theorem fail {cause : QueryError} (h : K.cause cause) : Obeys K V (Reader.fail cause) := by
  intro l hl
  refine ⟨fun b l' hb => (by cases hb), fun cause' hcause => ?_⟩
  cases hcause
  exact h

theorem bind {r : Reader α} {f : α → Reader β} (hr : Obeys K V r)
    (hf : ∀ a, V a → Obeys K W (f a)) : Obeys K W (r >>= f) := by
  intro l hl
  refine ⟨fun b l' hb => ?_, fun cause hcause => ?_⟩
  · obtain ⟨a, l₁, h₁, h₂⟩ := bind_eq_ok.mp hb
    obtain ⟨ha, hl₁⟩ := (hr l hl).1 a l₁ h₁
    exact (hf a ha l₁ hl₁).1 b l' h₂
  · obtain h₁ | ⟨a, l₁, h₁, h₂⟩ := bind_eq_error.mp hcause
    · exact (hr l hl).2 cause h₁
    · obtain ⟨ha, hl₁⟩ := (hr l hl).1 a l₁ h₁
      exact (hf a ha l₁ hl₁).2 cause h₂

theorem mono {V' : α → Prop} {r : Reader α} (hr : Obeys K V r) (h : ∀ a, V a → V' a) :
    Obeys K V' r := fun l hl =>
  ⟨fun a l' ha => ⟨h a ((hr l hl).1 a l' ha).1, ((hr l hl).1 a l' ha).2⟩, (hr l hl).2⟩

theorem next (hK : K.Lawful) : Obeys K K.lexeme Reader.next := fun _ hl =>
  ⟨fun _ _ h => hK.next hl h, fun _ h => hK.unread hl h⟩

theorem peek (hK : K.Lawful) : Obeys K K.lexeme Reader.peek := by
  intro l hl
  simp only [Reader.peek, Lexer.peek]
  rcases hn : l.next with cause | ⟨x, l'⟩
  · refine ⟨fun a l' h => (by cases h), fun cause' h => ?_⟩
    cases h
    exact hK.unread hl hn
  · refine ⟨fun a l' h => ?_, fun cause' h => (by cases h)⟩
    cases h
    exact ⟨(hK.next hl hn).1, hK.pushBack hl hn⟩

theorem accept (hK : K.Lawful) (c : Char) : Obeys K (fun _ => True) (Reader.accept c) :=
  (peek hK).bind fun _ _ => by
    split
    · exact (next hK).bind fun _ _ => pure trivial
    · exact pure trivial

/-- The values of a repeated reader; the induction is on what is left to read. -/
theorem many {step : Reader (Option α)} {takes : TakesSome step}
    (hstep : Obeys K (fun o => ∀ a ∈ o, V a) step) :
    Obeys K (fun as => ∀ a ∈ as, V a) (Reader.many step takes) := by
  intro l
  induction hn : l.size using Nat.strongRecOn generalizing l with
  | ind n ih =>
    subst hn
    intro hl
    rw [many_eq]
    refine ⟨fun as l' h => ?_, fun cause h => ?_⟩
    · obtain ⟨o, l₁, h₁, h₂⟩ := bind_eq_ok.mp h
      obtain ⟨ho, hl₁⟩ := (hstep l hl).1 o l₁ h₁
      cases o with
      | none =>
        obtain ⟨rfl, rfl⟩ := pure_eq_ok.mp h₂
        exact ⟨by simp, hl₁⟩
      | some a =>
        obtain ⟨bs, l₂, h₃, h₄⟩ := bind_eq_ok.mp h₂
        obtain ⟨rfl, rfl⟩ := pure_eq_ok.mp h₄
        obtain ⟨hbs, hl₂⟩ := (ih l₁.size (takes _ _ _ h₁) l₁ rfl hl₁).1 bs l₂ h₃
        exact ⟨List.forall_mem_cons.mpr ⟨ho a rfl, hbs⟩, hl₂⟩
    · obtain h₁ | ⟨o, l₁, h₁, h₂⟩ := bind_eq_error.mp h
      · exact (hstep l hl).2 cause h₁
      obtain ⟨-, hl₁⟩ := (hstep l hl).1 o l₁ h₁
      cases o with
      | none => cases h₂
      | some a =>
        obtain h₃ | ⟨bs, l₂, -, h₄⟩ := bind_eq_error.mp h₂
        · exact (ih l₁.size (takes _ _ _ h₁) l₁ rfl hl₁).2 cause h₃
        · cases h₄

end Obeys

end Reader

namespace Lexer

/-- A lexer fails only where a quoted text never ends. -/
theorem cause_of_next {l : Lexer} {cause : QueryError} (h : l.next = .error cause) :
    ∃ position, cause = .unterminatedText position := by
  unfold next at h
  split at h
  · cases h
  · unfold scan at h
    simp only at h
    split at h
    · cases h
    · split at h
      · cases h
      · split at h
        · split at h
          · cases h
            exact ⟨_, rfl⟩
          · cases h
        · cases h

end Lexer

namespace TokenStream

/-- The token that is next is one of the tokens, or the end. -/
theorem head_mem {s : TokenStream} (h : s.head ≠ .eof) : s.head ∈ s.tokens := by
  rw [eq_cons_of_head rfl h]
  exact List.mem_cons_self

theorem mem_of_mem_tail {s : TokenStream} {t : Token} (h : t ∈ s.tail.tokens) : t ∈ s.tokens :=
  List.mem_of_mem_tail h

end TokenStream

namespace Reading

/-- Nothing is known. -/
theorem lawful_true : Lawful ⟨fun _ => True, fun _ => True, fun _ => True⟩ where
  next _ _ := ⟨trivial, trivial⟩
  pushBack _ _ := trivial
  unread _ _ := trivial
  unexpected _ _ := trivial
  misplaced _ _ _ _ := trivial
  placeless _ := trivial

/-- The quoted texts that are to come have `word`, and the causes are any but those that tell of
attached filters or of the parser's stacks. -/
def quoting (word : String → Prop) : Reading where
  lexer l := ∃ s, l.Gives s ∧ ∀ text, .quoted text ∈ s.tokens → word text
  lexeme x := ∀ text, x.token = .quoted text → word text
  cause
    | .invalidExpression | .aliasDepthExceeded _ | .nested .. => False
    | _ => True

theorem word_of_quoting {word : String → Prop} {text : String} (h : (quoting word).Word text) :
    word text := by
  obtain ⟨position, h⟩ := h
  exact h text rfl

theorem lawful_quoting (word : String → Prop) : (quoting word).Lawful where
  next := by
    rintro l l' x ⟨s, hs, hwords⟩ hn
    obtain ⟨-, hx, hl'⟩ := hs.of_next hn
    refine ⟨fun text htext => hwords text ?_,
      s.tail, hl', fun text h => hwords text (TokenStream.mem_of_mem_tail h)⟩
    rw [← htext, hx]
    exact TokenStream.head_mem (by rw [← hx, htext]; simp)
  pushBack := by
    rintro l l' x ⟨s, hs, hwords⟩ hn
    exact ⟨s, hs.pushBack hn, hwords⟩
  unread := by
    intro l cause _ hn
    have := Lexer.cause_of_next hn
    obtain ⟨position, rfl⟩ := this
    trivial
  unexpected := by
    intro x expected _
    unfold QueryError.unexpected
    split <;> trivial
  misplaced := fun _ _ _ _ => trivial
  placeless := by
    intro cause h
    cases cause with
    | invalidExpression | aliasDepthExceeded _ | nested _ _ => cases h
    | _ => trivial

/-- Before anything is read, any text will do where nothing is asked of words. -/
theorem quoting_ofString (text : String) : (quoting fun _ => True).lexer (Lexer.ofString text) :=
  ⟨_, Lexer.gives_of_held_none rfl, fun _ _ => trivial⟩

end Reading

end CalendarQuery
