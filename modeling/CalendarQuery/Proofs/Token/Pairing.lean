import CalendarQuery.Proofs.Token.Reading

/-!
# Two runs side by side

A `Pairing` says how two lexers go together, and when they part: the second run is of no interest
where the first one fails with some cause, nor the first one where the second breaks off. Readers
are paired if they keep lexers together and give the same values until then.

* `Pairing.Along`: two outcomes of paired computations. `Pairing.Lawful`: the operations of lexers
  keep to the pairing.
* `Reader.Paired`: the judgment, with one rule for each way in which readers are made.
* `Pairing.sameTokens`: lexers with the same tokens; failures are not compared.
* `Pairing.cutShort`: the second lexer breaks off where the first one goes on.
-/

namespace CalendarQuery

/-- How two runs go together. -/
structure Pairing where
  lexer : Lexer → Lexer → Prop
  lexeme : Lexeme → Lexeme → Prop
  /-- Causes with which the first run fails whatever the second one does. -/
  cause : QueryError → Prop
  /-- Causes with which the second run breaks off whatever the first one does. -/
  broken : QueryError → Prop

namespace Pairing

variable {P : Pairing} {α β : Type} {R : α → α → Prop} {S : β → β → Prop}

/-- Two outcomes that go together: values do, or the runs have parted. -/
inductive Along (P : Pairing) (R : α → α → Prop) : Except QueryError α → Except QueryError α → Prop
  | ok {a a' : α} : R a a' → Along P R (.ok a) (.ok a')
  | failed {cause : QueryError} {r : Except QueryError α} : P.cause cause →
    Along P R (.error cause) r
  | broken {cause : QueryError} {r : Except QueryError α} : P.broken cause →
    Along P R r (.error cause)

theorem Along.bind {r r' : Except QueryError α} {f f' : α → Except QueryError β}
    (hr : P.Along R r r') (hf : ∀ a a', R a a' → P.Along S (f a) (f' a')) :
    P.Along S (r >>= f) (r' >>= f') := by
  cases hr with
  | ok h => exact hf _ _ h
  | failed h => exact .failed h
  | broken h => exact .broken h

/-- The operations of lexers keep to the pairing, and the causes of readers do. -/
structure Lawful (P : Pairing) : Prop where
  token : ∀ {x y : Lexeme}, P.lexeme x y → x.token = y.token
  next : ∀ {l l' : Lexer}, P.lexer l l' →
    P.Along (fun r r' => P.lexeme r.1 r'.1 ∧ P.lexer r.2 r'.2) l.next l'.next
  pushBack : ∀ {l l' l₁ l₁' : Lexer} {x y : Lexeme}, P.lexer l l' → l.next = .ok (x, l₁) →
    l'.next = .ok (y, l₁') → P.lexer (l₁.pushBack x) (l₁'.pushBack y)
  unexpected : ∀ {x y : Lexeme} (expected : Expected), P.lexeme x y →
    P.cause (.unexpected x expected)
  misplaced : ∀ {x y : Lexeme} {word : String} (expected : Expected), P.lexeme x y →
    x.token = .word word → P.cause (.unexpectedToken (.property word) expected x.position)
  other : ∀ {cause : QueryError}, cause.tellsOfToken = false → P.cause cause

theorem Lawful.placeless (hP : P.Lawful) {cause : QueryError} (h : cause.isPlaceless = true) :
    P.cause cause :=
  hP.other (QueryError.tellsOfToken_of_isPlaceless h)

end Pairing

namespace Reader

variable {P : Pairing} {α β : Type}

/-- Two readers that keep lexers together and give the same values, until the runs part. -/
def Paired (P : Pairing) (r r' : Reader α) : Prop :=
  ∀ l l', P.lexer l l' → P.Along (fun x x' => x.1 = x'.1 ∧ P.lexer x.2 x'.2) (r l) (r' l')

namespace Paired

theorem pure (a : α) : Paired P (Pure.pure a) (Pure.pure a) := fun _ _ hl => .ok ⟨rfl, hl⟩

theorem fail {cause : QueryError} (h : P.cause cause) (r : Reader α) :
    Paired P (Reader.fail cause) r := fun _ _ _ => .failed h

theorem bind {r r' : Reader α} {f f' : α → Reader β} (hr : Paired P r r')
    (hf : ∀ a, Paired P (f a) (f' a)) : Paired P (r >>= f) (r' >>= f') := by
  intro l l' hl
  refine (hr l l' hl).bind fun x x' hx => ?_
  obtain ⟨a, l₁⟩ := x
  obtain ⟨a', l₁'⟩ := x'
  obtain ⟨rfl, hl₁⟩ := hx
  exact hf a l₁ l₁' hl₁

/-- The next lexeme, with readers behind it that are paired for lexemes of one token. -/
theorem next_bind (hP : P.Lawful) {f f' : Lexeme → Reader β}
    (hf : ∀ t p p', P.lexeme ⟨t, p⟩ ⟨t, p'⟩ → Paired P (f ⟨t, p⟩) (f' ⟨t, p'⟩)) :
    Paired P (Reader.next >>= f) (Reader.next >>= f') := by
  intro l l' hl
  refine (hP.next hl).bind fun x x' hx => ?_
  obtain ⟨⟨t, p⟩, l₁⟩ := x
  obtain ⟨⟨u, p'⟩, l₁'⟩ := x'
  obtain ⟨hlexeme, hl₁⟩ := hx
  obtain rfl : t = u := hP.token hlexeme
  exact hf t p p' hlexeme l₁ l₁' hl₁

theorem peek_bind (hP : P.Lawful) {f f' : Lexeme → Reader β}
    (hf : ∀ t p p', P.lexeme ⟨t, p⟩ ⟨t, p'⟩ → Paired P (f ⟨t, p⟩) (f' ⟨t, p'⟩)) :
    Paired P (Reader.peek >>= f) (Reader.peek >>= f') := by
  intro l l' hl
  have hnext := hP.next hl
  have hpush {l₁ l₁' : Lexer} {x y : Lexeme} : l.next = .ok (x, l₁) → l'.next = .ok (y, l₁') →
      P.lexer (l₁.pushBack x) (l₁'.pushBack y) := hP.pushBack hl
  show P.Along _ (l.peek >>= fun x => f x.1 x.2) (l'.peek >>= fun x => f' x.1 x.2)
  unfold Lexer.peek
  generalize l.next = r, l'.next = r' at hnext hpush ⊢
  cases hnext with
  | failed h => exact .failed h
  | broken h => exact .broken h
  | @ok x x' h =>
    obtain ⟨⟨t, p⟩, l₁⟩ := x
    obtain ⟨⟨u, p'⟩, l₁'⟩ := x'
    obtain rfl : t = u := hP.token h.1
    exact hf t p p' h.1 _ _ (hpush rfl rfl)

theorem accept (hP : P.Lawful) (c : Char) : Paired P (Reader.accept c) (Reader.accept c) :=
  peek_bind hP fun t _ _ _ => by
    by_cases h : Token.isSymbol t c = true
    · simp only [h, if_true]
      exact next_bind hP fun _ _ _ _ => pure true
    · simp only [h]
      exact pure false

/-- A repeated reader; the induction is on what is left to the first run. -/
theorem many {step : Reader (Option α)} {takes : TakesSome step} (hs : Paired P step step) :
    Paired P (many step takes) (many step takes) := by
  intro l
  induction hn : l.size using Nat.strongRecOn generalizing l with
  | ind n ih =>
    subst hn
    intro l' hl
    have hstep := hs l l' hl
    have hsize := takes l
    rw [many_eq]
    show P.Along _ (step l >>= _) (step l' >>= _)
    generalize step l = r, step l' = r' at hstep hsize ⊢
    cases hstep with
    | failed h => exact .failed h
    | broken h => exact .broken h
    | @ok x x' h =>
      obtain ⟨o, l₁⟩ := x
      obtain ⟨o', l₁'⟩ := x'
      obtain ⟨rfl, hl₁⟩ := h
      cases o with
      | none => exact .ok ⟨rfl, hl₁⟩
      | some a =>
        refine (ih l₁.size (hsize l₁ a rfl) l₁ rfl l₁' hl₁).bind fun y y' hy => ?_
        exact .ok ⟨by rw [hy.1], hy.2⟩

end Paired

end Reader

namespace Pairing

open Lexer

/-- Two lexers with the same tokens. -/
def sameTokens : Pairing where
  lexer l l' := ∃ s, l.Gives s ∧ l'.Gives s
  lexeme x y := x.token = y.token
  cause _ := True
  broken _ := False

theorem lawful_sameTokens : sameTokens.Lawful where
  token := id
  next := by
    rintro l l' ⟨s, hl, hl'⟩
    rcases hn : l.next with cause | ⟨x, l₁⟩
    · exact .failed trivial
    · obtain ⟨hs, hx, hl₁⟩ := hl.of_next hn
      obtain ⟨y, l₁', hn', hy, hl₁'⟩ := hl'.next hs
      rw [hn']
      exact .ok ⟨hx.trans hy.symm, _, hl₁, hl₁'⟩
  pushBack := by
    rintro l l' l₁ l₁' x y ⟨s, hl, hl'⟩ hn hn'
    exact ⟨s, hl.pushBack hn, hl'.pushBack hn'⟩
  unexpected _ _ := trivial
  misplaced _ _ _ := trivial
  other _ := trivial

/-- The second lexer delivers lexemes of the first one, and then breaks off with `cause`. -/
def cutShort (cause : QueryError) : Pairing where
  lexer l l' := l'.lexemes.1 <+: l.lexemes.1 ∧ l'.lexemes.2 = .error cause
  lexeme x y := x = y ∧ x.token ≠ .eof
  cause e := ∀ expected, e ≠ .unexpectedEnd expected
  broken e := e = cause

theorem lawful_cutShort (cause : QueryError) : (cutShort cause).Lawful where
  token h := by rw [h.1]
  next := by
    rintro l l' ⟨hfirst, hstop⟩
    rcases hn' : l'.next with e | ⟨x, l₁'⟩
    · rw [lexemes_of_error hn'] at hstop
      exact .broken (Except.error.inj hstop)
    · by_cases hx : x.token = .eof
      · rw [lexemes_of_eof hn' hx] at hstop
        cases hstop
      · rw [lexemes_of_next hn' hx] at hfirst hstop
        obtain ⟨zs, hzs⟩ := hfirst
        obtain ⟨l₁, hn, hlexemes⟩ := next_of_lexemes hzs.symm
        rw [hn]
        exact .ok ⟨⟨rfl, hx⟩, ⟨zs, hlexemes.symm⟩, hstop⟩
  pushBack := by
    rintro l l' l₁ l₁' x y ⟨hfirst, hstop⟩ hn hn'
    simp only [cutShort, lexemes_pushBack hn, lexemes_pushBack hn']
    exact ⟨hfirst, hstop⟩
  unexpected := by
    rintro x y expected ⟨-, hx⟩ expected' h
    unfold QueryError.unexpected at h
    split at h
    · contradiction
    · cases h
  misplaced := fun _ _ _ _ h => by cases h
  other := by
    rintro cause h expected rfl
    cases h

/-- If the first run comes to the end of its tokens too early, the second one breaks off. -/
theorem Along.eq_error_of_cutShort {cause : QueryError} {expected : Expected}
    {r : Except QueryError α}
    (h : (cutShort cause).Along R (.error (.unexpectedEnd expected)) r) : r = .error cause := by
  cases h with
  | failed hcause => exact absurd rfl (hcause expected)
  | broken hbroken => rw [hbroken]

end Pairing

end CalendarQuery
