import CalendarQuery.Proofs.Token.Pairing

/-!
# Readers and token streams

What a reader does is decided by the tokens that are left, not by the places at which they stand.

* `Reader.Reads r s a s'`: wherever the tokens are those of `s`, the reader gives `a` and leaves
  those of `s'`. The rules follow the text of a reader.
* `Reader.Alike r r'`: on the same tokens, if `r` succeeds then `r'` gives the same value and leaves
  the same tokens. A reader that is alike to itself is decided by the tokens.
* `Reader.Accepts`: some lexer with the tokens of `s` is read. For a reader that is alike to itself
  every other such lexer is read as well (`Accepts.reads`), and a run is taken apart along the text
  of the reader (`Accepts.of_bind`).
-/

namespace CalendarQuery

namespace Reader

variable {α β : Type}

/-- Wherever the tokens are those of `s`, the reader gives `a` and leaves those of `s'`. -/
def Reads (r : Reader α) (s : TokenStream) (a : α) (s' : TokenStream) : Prop :=
  ∀ l : Lexer, l.Gives s → ∃ l', r l = .ok (a, l') ∧ l'.Gives s'

namespace Reads

variable {s s₁ s' : TokenStream} {a : α} {b : β}

theorem pure (a : α) (s : TokenStream) : Reads (Pure.pure a) s a s :=
  fun l hl => ⟨l, rfl, hl⟩

theorem bind {r : Reader α} {f : α → Reader β} (hr : Reads r s a s₁) (hf : Reads (f a) s₁ b s') :
    Reads (r >>= f) s b s' := by
  intro l hl
  obtain ⟨l₁, h₁, hl₁⟩ := hr l hl
  obtain ⟨l₂, h₂, hl₂⟩ := hf l₁ hl₁
  exact ⟨l₂, bind_eq_ok.mpr ⟨a, l₁, h₁, h₂⟩, hl₂⟩

/-- What follows the next lexeme may use its token only, which may be the end. -/
theorem next_bind_head {f : Lexeme → Reader β} (hs : s.Readable)
    (hf : ∀ x : Lexeme, x.token = s.head → Reads (f x) s.tail b s') :
    Reads (Reader.next >>= f) s b s' := by
  intro l hl
  obtain ⟨x, l₁, h₁, hx, hl₁⟩ := hl.next hs
  obtain ⟨l₂, h₂, hl₂⟩ := hf x hx l₁ hl₁
  exact ⟨l₂, bind_eq_ok.mpr ⟨x, l₁, h₁, h₂⟩, hl₂⟩

theorem next_bind {f : Lexeme → Reader β} {t : Token}
    (hf : ∀ x : Lexeme, x.token = t → Reads (f x) s b s') :
    Reads (Reader.next >>= f) (s.cons t) b s' :=
  next_bind_head (TokenStream.readable_cons t s) hf

theorem peek_bind {f : Lexeme → Reader β} (hs : s.Readable)
    (hf : ∀ x : Lexeme, x.token = s.head → Reads (f x) s b s') :
    Reads (Reader.peek >>= f) s b s' := by
  intro l hl
  obtain ⟨x, l₁, h₁, hx, hl₁⟩ := hl.peek hs
  obtain ⟨l₂, h₂, hl₂⟩ := hf x hx l₁ hl₁
  exact ⟨l₂, bind_eq_ok.mpr ⟨x, l₁, h₁, h₂⟩, hl₂⟩

/-- An expected symbol is taken. -/
theorem accept_symbol (c : Char) (s : TokenStream) :
    Reads (accept c) (s.cons (.symbol c)) true s :=
  peek_bind (TokenStream.readable_cons _ _) fun x hx => by
    rw [TokenStream.head_cons] at hx
    rw [if_pos (by simp [hx, Token.isSymbol])]
    exact next_bind fun _ _ => pure true s

/-- Any other token stays. -/
theorem accept_other {c : Char} (hs : s.Readable) (hc : s.head ≠ .symbol c) :
    Reads (accept c) s false s :=
  peek_bind hs fun x hx => by
    rw [if_neg (by simp [hx, hc, Token.isSymbol])]
    exact pure false s

theorem many_none {step : Reader (Option α)} {takes : TakesSome step}
    (h : Reads step s none s') : Reads (many step takes) s [] s' := by
  rw [many_eq]
  exact h.bind (pure [] s')

theorem many_some {step : Reader (Option α)} {takes : TakesSome step} {as : List α}
    (h : Reads step s (some a) s₁) (hs : Reads (many step takes) s₁ as s') :
    Reads (many step takes) s (a :: as) s' := by
  rw [many_eq]
  exact h.bind (hs.bind (pure (a :: as) s'))

end Reads

/-! ## Readers that are decided by the tokens -/

/-- On the same tokens, if `r` succeeds then `r'` gives the same value and leaves the same
tokens. -/
def Alike (r r' : Reader α) : Prop :=
  ∀ (s : TokenStream) (l l' l₁ : Lexer) (a : α), l.Gives s → l'.Gives s → r l = .ok (a, l₁) →
    ∃ s₁ l₁', r' l' = .ok (a, l₁') ∧ l₁.Gives s₁ ∧ l₁'.Gives s₁

theorem alike_of_paired {r r' : Reader α} (h : Paired Pairing.sameTokens r r') : Alike r r' := by
  intro s l l' l₁ a hl hl' ha
  have hr := h l l' ⟨s, hl, hl'⟩
  rw [ha] at hr
  generalize r' l' = x' at hr ⊢
  cases hr with
  | @ok _ x' hx =>
    obtain ⟨a', l₁'⟩ := x'
    obtain ⟨rfl, s₁, hl₁, hl₁'⟩ := hx
    exact ⟨s₁, l₁', rfl, hl₁, hl₁'⟩
  | broken hbroken => exact hbroken.elim

/-- Some lexer with the tokens of `s` is read, with value `a` and the tokens of `s'` left. -/
def Accepts (r : Reader α) (s : TokenStream) (a : α) (s' : TokenStream) : Prop :=
  ∃ l l' : Lexer, l.Gives s ∧ r l = .ok (a, l') ∧ l'.Gives s'

/-- What one lexer with these tokens gives, every lexer with them gives. -/
theorem Accepts.reads {r : Reader α} {s s' : TokenStream} {a : α} (h : Accepts r s a s')
    (hr : Alike r r) : Reads r s a s' := by
  obtain ⟨l, l₁, hl, h₁, hl₁⟩ := h
  intro l' hl'
  obtain ⟨s₁, l₁', h₁', hs₁, hl₁'⟩ := hr s l l' l₁ a hl hl' h₁
  obtain rfl := hl₁.unique hs₁
  exact ⟨l₁', h₁', hl₁'⟩

theorem Reads.accepts {r : Reader α} {s s' : TokenStream} {a : α} (h : Reads r s a s')
    (hs : s.Given) : Accepts r s a s' := by
  obtain ⟨l, hl⟩ := hs
  obtain ⟨l', h', hl'⟩ := h l hl
  exact ⟨l, l', hl, h', hl'⟩

/-! ## Taking an accepting run apart -/

namespace Accepts

variable {s s' : TokenStream} {a : α} {b : β}

theorem of_pure {a' : α} (h : Accepts (Pure.pure a) s a' s') : a = a' ∧ s = s' := by
  obtain ⟨l, l', hl, h, hl'⟩ := h
  obtain ⟨rfl, rfl⟩ := pure_eq_ok.mp h
  exact ⟨rfl, hl.unique hl'⟩

theorem given {r : Reader α} (h : Accepts r s a s') : s.Given := by
  obtain ⟨l, -, hl, -, -⟩ := h
  exact ⟨l, hl⟩

theorem not_fail {cause : QueryError} : ¬ Accepts (Reader.fail cause) s a s' := by
  rintro ⟨l, l', -, h, -⟩
  cases h

/-- Between two readers the tokens are those that the first one leaves. -/
theorem of_bind {r : Reader α} {f : α → Reader β} (hr : Alike r r)
    (h : Accepts (r >>= f) s b s') : ∃ a s₁, Accepts r s a s₁ ∧ Accepts (f a) s₁ b s' := by
  obtain ⟨l, l', hl, h, hl'⟩ := h
  obtain ⟨a, l₁, h₁, h₂⟩ := bind_eq_ok.mp h
  obtain ⟨s₁, _, -, hl₁, -⟩ := hr s l l l₁ a hl hl h₁
  exact ⟨a, s₁, ⟨l, l₁, hl, h₁, hl₁⟩, l₁, l', hl₁, h₂, hl'⟩

/-- A value that is made of what a reader gives. -/
theorem of_bind_pure {r : Reader α} {f : α → β}
    (h : Accepts (r >>= fun a => Pure.pure (f a)) s b s') : ∃ a, b = f a ∧ Accepts r s a s' := by
  obtain ⟨l, l', hl, h, hl'⟩ := h
  obtain ⟨a, l₁, h₁, h₂⟩ := bind_eq_ok.mp h
  obtain ⟨rfl, rfl⟩ := pure_eq_ok.mp h₂
  exact ⟨a, rfl, l, l₁, hl, h₁, hl'⟩

theorem of_next_bind {f : Lexeme → Reader β} (h : Accepts (Reader.next >>= f) s b s') :
    s.Readable ∧ ∃ x : Lexeme, x.token = s.head ∧ Accepts (f x) s.tail b s' := by
  obtain ⟨l, l', hl, h, hl'⟩ := h
  obtain ⟨x, l₁, h₁, h₂⟩ := bind_eq_ok.mp h
  obtain ⟨hs, hx, hl₁⟩ := hl.of_next h₁
  exact ⟨hs, x, hx, l₁, l', hl₁, h₂, hl'⟩

theorem of_peek_bind {f : Lexeme → Reader β} (h : Accepts (Reader.peek >>= f) s b s') :
    s.Readable ∧ ∃ x : Lexeme, x.token = s.head ∧ Accepts (f x) s b s' := by
  obtain ⟨l, l', hl, h, hl'⟩ := h
  obtain ⟨x, l₁, h₁, h₂⟩ := bind_eq_ok.mp h
  obtain ⟨hs, hx, hl₁⟩ := hl.of_peek h₁
  exact ⟨hs, x, hx, l₁, l', hl₁, h₂, hl'⟩

theorem of_accept_bind {c : Char} {f : Bool → Reader β}
    (h : Accepts (Reader.accept c >>= f) s b s') :
    (∃ s₁, s = s₁.cons (.symbol c) ∧ Accepts (f true) s₁ b s') ∨
      s.Readable ∧ s.head ≠ .symbol c ∧ Accepts (f false) s b s' := by
  obtain ⟨hs, x, hx, h⟩ := (bind_assoc Reader.peek _ f ▸ h).of_peek_bind
  by_cases hc : x.token = .symbol c
  · left
    rw [if_pos (by simp [hc, Token.isSymbol])] at h
    obtain ⟨-, -, -, h⟩ := (bind_assoc Reader.next _ f ▸ h).of_next_bind
    exact ⟨s.tail, TokenStream.eq_cons_of_head (hx.symm.trans hc) (by simp), h⟩
  · right
    rw [if_neg (by simp [hc, Token.isSymbol])] at h
    exact ⟨hs, fun hhead => hc (hx.trans hhead), h⟩

/-- The first round of a repeated reader. -/
theorem of_many {step : Reader (Option α)} {takes : TakesSome step} {as : List α}
    (hstep : Alike step step) (h : Accepts (many step takes) s as s') :
    (as = [] ∧ Accepts step s none s') ∨ ∃ a bs s₁, as = a :: bs ∧ Accepts step s (some a) s₁ ∧
      Accepts (many step takes) s₁ bs s' := by
  rw [many_eq] at h
  obtain ⟨o, s₁, h₁, h₂⟩ := h.of_bind hstep
  cases o with
  | none =>
    obtain ⟨rfl, rfl⟩ := h₂.of_pure
    exact .inl ⟨rfl, h₁⟩
  | some a =>
    obtain ⟨bs, rfl, hbs⟩ := h₂.of_bind_pure
    exact .inr ⟨a, bs, s₁, rfl, h₁, hbs⟩

end Accepts

end Reader

end CalendarQuery
