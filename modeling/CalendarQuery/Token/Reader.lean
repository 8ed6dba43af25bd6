import CalendarQuery.Token.Lexer

/-!
# Readers

A reader takes lexemes from a lexer and gives a value, or fails. Readers are sequenced with `do`;
`Reader.many` repeats one as long as it gives something.

* `Reader.Keeps`: the reader leaves no more than it found. This goes through sequencing
  (`Keeps.bind`), so that it is read off a reader's text.
* `Reader.TakesSome`: the reader leaves less whenever it gives something, which is why repeating it
  ends.
-/

namespace CalendarQuery

/-- A reader of an `α`. -/
abbrev Reader (α : Type) := StateT Lexer (Except QueryError) α

namespace Reader

/-- The next lexeme. -/
def next : Reader Lexeme := fun l => l.next

/-- The next lexeme, which stays the next one. -/
def peek : Reader Lexeme := fun l => l.peek

/-- Fails. -/
def fail {α : Type} (cause : QueryError) : Reader α := fun _ => .error cause

/-- Takes the next lexeme if it is the given symbol, and says whether it was. -/
def accept (c : Char) : Reader Bool := do
  let lexeme ← peek
  if lexeme.token.isSymbol c then
    let _ ← next
    return true
  else return false

/-- The reader leaves no more than it found. -/
def Keeps {α : Type} (r : Reader α) : Prop :=
  ∀ (l l' : Lexer) (a : α), r l = .ok (a, l') → l'.size ≤ l.size

/-- The reader leaves less than it found whenever it gives something. -/
def TakesSome {α : Type} (r : Reader (Option α)) : Prop :=
  ∀ (l l' : Lexer) (a : α), r l = .ok (some a, l') → l'.size < l.size

variable {α β : Type}

theorem bind_eq_ok {r : Reader α} {f : α → Reader β} {l l' : Lexer} {b : β} :
    (r >>= f) l = .ok (b, l') ↔ ∃ a l₁, r l = .ok (a, l₁) ∧ f a l₁ = .ok (b, l') := by
  simp only [bind, StateT.bind, Except.bind]
  constructor
  · intro h
    split at h
    · simp at h
    · rename_i v hv; exact ⟨v.1, v.2, hv, h⟩
  · rintro ⟨a, l₁, h₁, h₂⟩
    rw [h₁]; exact h₂

theorem pure_eq_ok {a b : α} {l l' : Lexer} :
    (pure a : Reader α) l = .ok (b, l') ↔ a = b ∧ l = l' := by
  show Except.ok (a, l) = Except.ok (b, l') ↔ _
  simp

theorem Keeps.pure (a : α) : Keeps (Pure.pure a : Reader α) := fun l l' b h => by
  obtain ⟨-, rfl⟩ := pure_eq_ok.mp h; exact Nat.le_refl _

theorem Keeps.fail (cause : QueryError) : Keeps (Reader.fail cause : Reader α) :=
  fun l l' b h => by simp [Reader.fail] at h

theorem Keeps.next : Keeps next := fun _ _ _ h => Lexer.size_next_le h

theorem Keeps.peek : Keeps peek := fun _ _ _ h => Lexer.size_peek_le h

theorem Keeps.bind {r : Reader α} {f : α → Reader β} (hr : Keeps r) (hf : ∀ a, Keeps (f a)) :
    Keeps (r >>= f) := fun l l' b h => by
  obtain ⟨a, l₁, h₁, h₂⟩ := bind_eq_ok.mp h
  exact Nat.le_trans (hf a _ _ _ h₂) (hr _ _ _ h₁)

/-- The next lexeme, and then a reader that gives nothing for the end of the expression. -/
theorem TakesSome.next_bind {f : Lexeme → Reader (Option β)} (hf : ∀ x, Keeps (f x))
    (hend : ∀ x l b l', x.token = .eof → f x l ≠ .ok (some b, l')) :
    TakesSome (Reader.next >>= f) := fun l l' b h => by
  obtain ⟨x, l₁, h₁, h₂⟩ := bind_eq_ok.mp h
  have hne : x.token ≠ .eof := fun he => hend x _ _ _ he h₂
  exact Nat.lt_of_le_of_lt (hf x _ _ _ h₂) (Lexer.size_next_lt h₁ hne)

theorem Keeps.accept (c : Char) : Keeps (accept c) :=
  Keeps.peek.bind fun x => by
    split
    · exact Keeps.next.bind fun _ => Keeps.pure _
    · exact Keeps.pure _

/-- What was looked at is what is taken next. -/
theorem next_of_peek {l l₁ l₂ : Lexer} {x y : Lexeme} (h₁ : Reader.peek l = .ok (x, l₁))
    (h₂ : Reader.next l₁ = .ok (y, l₂)) : y = x := by
  simp only [Reader.peek, Lexer.peek, bind, Except.bind] at h₁
  split at h₁
  · simp at h₁
  · simp only [pure, Except.pure, Except.ok.injEq, Prod.mk.injEq] at h₁
    obtain ⟨rfl, rfl⟩ := h₁
    simp only [Reader.next, Lexer.next, Lexer.pushBack, Except.ok.injEq, Prod.mk.injEq] at h₂
    exact h₂.1.symm

/-- An accepted symbol is taken. -/
theorem size_accept {c : Char} {l l' : Lexer} (h : Reader.accept c l = .ok (true, l')) :
    l'.size < l.size := by
  obtain ⟨x, l₁, h₁, h₂⟩ := bind_eq_ok.mp h
  split at h₂
  · rename_i hx
    obtain ⟨y, l₂, h₃, h₄⟩ := bind_eq_ok.mp h₂
    obtain ⟨-, rfl⟩ := pure_eq_ok.mp h₄
    have hne : y.token ≠ .eof := by
      rw [next_of_peek h₁ h₃]; intro he; rw [he] at hx; simp [Token.isSymbol] at hx
    exact Nat.lt_of_lt_of_le (Lexer.size_next_lt h₃ hne) (Lexer.size_peek_le h₁)
  · obtain ⟨hf, -⟩ := pure_eq_ok.mp h₂
    simp at hf

/-- Repeats a reader until it gives nothing. -/
def many (step : Reader (Option α)) (takes : TakesSome step) : Reader (List α) := fun l =>
  match _h : step l with
  | .error cause => .error cause
  | .ok (none, l') => .ok ([], l')
  | .ok (some a, l') =>
    match many step takes l' with
    | .error cause => .error cause
    | .ok (as, l'') => .ok (a :: as, l'')
termination_by l => l.size
decreasing_by exact takes _ _ _ _h

theorem many_eq (step : Reader (Option α)) (takes : TakesSome step) :
    many step takes = do
      match ← step with
      | none => pure []
      | some a => return a :: (← many step takes) := by
  funext l
  rw [many]
  simp only [bind, StateT.bind, Except.bind]
  cases h : step l with
  | error cause => rfl
  | ok r =>
    obtain ⟨_ | a, l'⟩ := r
    · rfl
    · simp only [StateT.bind, bind, Except.bind]
      cases many step takes l' <;> rfl

theorem Keeps.many {step : Reader (Option α)} {takes : TakesSome step} (hk : Keeps step) :
    Keeps (many step takes) := fun l => by
  induction hn : l.size using Nat.strongRecOn generalizing l with
  | ind n ih =>
    intro l' as h
    rw [many_eq] at h
    obtain ⟨o, l₁, h₁, h₂⟩ := bind_eq_ok.mp h
    have hle := hk _ _ _ h₁
    cases o with
    | none => obtain ⟨-, rfl⟩ := pure_eq_ok.mp h₂; omega
    | some a =>
      obtain ⟨bs, l₂, h₃, h₄⟩ := bind_eq_ok.mp h₂
      obtain ⟨-, rfl⟩ := pure_eq_ok.mp h₄
      have hlt := takes _ _ _ h₁
      have := ih l₁.size (by omega) l₁ rfl _ _ h₃
      omega

end Reader

end CalendarQuery
