import CalendarQuery.Proofs.Token.Stream

/-!
# Looking one lexeme ahead

A lexer in use delivers lexemes, shows the next one, and takes the last one back. As long as a lexeme
is returned right after it was delivered, the lexemes that stay delivered are the first ones of the
text, whatever the calls are.

* `Begins`: lexemes are the first ones that a lexer delivers. `Passes`: where it is behind them.
* `disciplined`: calls that return a lexeme only right after it was delivered.
* `kept`: the lexemes that were delivered and not returned, read off the calls and their answers.
* `Follows`: what such calls preserve, with a lemma for each of them and `Follows.after` for all.
* `Faithful`, `faithful_run`: what is known of the lexer after them.
-/

namespace CalendarQuery.Lexer

variable {l l₁ l₂ : Lexer} {x : Lexeme} {xs : List Lexeme} {cause : QueryError}

/-! ## The first lexemes of a lexer -/

/-- The lexemes are the first ones that the lexer delivers. It delivers the end of the expression
over and over. -/
def Begins (l : Lexer) (xs : List Lexeme) : Prop :=
  xs <+: l.lexemes.1 ∨
    ∃ last n, l.lexemes.2 = .ok last ∧ xs = l.lexemes.1 ++ List.replicate n last

/-- A lexer that has delivered the lexemes stands there and holds none: it goes on with the others,
or it has delivered the end of the expression and stays at it. -/
def Passes (l : Lexer) (xs : List Lexeme) (l' : Lexer) : Prop :=
  l'.held = none ∧ (l.lexemes = (xs ++ l'.lexemes.1, l'.lexemes.2) ∨
    ∃ last n, l.lexemes.2 = .ok last ∧ xs = l.lexemes.1 ++ List.replicate n last ∧
      l'.next = .ok (last, l'))

/-- The end of the expression comes again after it has come. -/
theorem next_again (hheld : l.held = none) (hn : l.next = .ok (x, l₁)) (hx : x.token = .eof) :
    l₁.next = .ok (x, l₁) := by
  rw [next, hheld] at hn
  simp only [scan] at hn
  split at hn
  · cases hn
    rfl
  · split at hn
    · cases hn
      cases hx
    · split at hn
      · split at hn
        · cases hn
        · cases hn
          cases hx
      · cases hn
        exact absurd hx (Token.ofWord_ne_eof _)

/-- A lexer stands before the start of the lexeme that it delivers next. -/
theorem position_le_of_next (hn : l.next = .ok (x, l₁)) : l.position ≤ x.position := by
  cases hheld : l.held with
  | some held =>
    rw [next, hheld] at hn
    cases hn
    exact Nat.le_of_eq (by simp [position, hheld])
  | none =>
    rw [next, hheld] at hn
    rw [position, hheld]
    simp only [scan] at hn
    split at hn
    · cases hn
      exact Nat.le_add_right _ _
    · split at hn
      · cases hn
        exact Nat.le_add_right _ _
      · split at hn
        · split at hn
          · cases hn
          · cases hn
            exact Nat.le_add_right _ _
        · cases hn
          exact Nat.le_add_right _ _

theorem passes_nil (hheld : l.held = none) : Passes l [] l := ⟨hheld, .inl rfl⟩

theorem Passes.begins (h : Passes l xs l₁) : l.Begins xs := by
  obtain ⟨-, h | ⟨last, n, hlast, hxs, -⟩⟩ := h
  · exact .inl ⟨l₁.lexemes.1, by rw [h]⟩
  · exact .inr ⟨last, n, hlast, hxs⟩

theorem Passes.next (h : Passes l xs l₁) (hn : l₁.next = .ok (x, l₂)) :
    Passes l (xs ++ [x]) l₂ := by
  obtain ⟨hheld, h | ⟨last, n, hlast, hxs, hagain⟩⟩ := h
  · refine ⟨(next_spec hn).1, ?_⟩
    by_cases hx : x.token = .eof
    · rw [lexemes_of_eof hn hx] at h
      exact .inr ⟨x, 1, by rw [h], by rw [h]; simp, next_again hheld hn hx⟩
    · rw [lexemes_of_next hn hx] at h
      exact .inl (by rw [h]; simp)
  · rw [hagain] at hn
    cases hn
    refine ⟨hheld, .inr ⟨x, n + 1, hlast, ?_, hagain⟩⟩
    rw [hxs, List.append_assoc, List.replicate_succ']

/-- Lexing fails behind all lexemes. -/
theorem Passes.failed (h : Passes l xs l₁) (hn : l₁.next = .error cause) :
    l.lexemes = (xs, .error cause) := by
  obtain ⟨-, h | ⟨last, n, -, -, hagain⟩⟩ := h
  · rw [h, lexemes_of_error hn, List.append_nil]
  · rw [hagain] at hn
    cases hn

/-! ## Calls -/

/-- A lexer in use, before the first call. -/
def Session.start (text : String) : Session := ⟨ofString text, none⟩

/-- A lexer in use, after the calls. -/
def Session.after (s : Session) : List Call → Session
  | [] => s
  | call :: calls => (s.step call).2.after calls

/-- Whether each lexeme that the calls return is the one that was delivered last, with nothing but
positions asked for in between; `fresh` says that one has just been delivered. -/
def disciplined (fresh : Bool) : List Call → Bool
  | [] => true
  | .next :: calls => disciplined true calls
  | .peek :: calls => disciplined false calls
  | .back :: calls => fresh && disciplined false calls
  | .position :: calls => disciplined fresh calls

/-- The lexemes that are kept after one more call, by the answer to it. -/
def keep (xs : List Lexeme) : Call × Answer → List Lexeme
  | (.next, .lexeme x) => xs ++ [x]
  | (.back, .returned) => xs.dropLast
  | _ => xs

/-- The lexemes that were delivered and not returned, by the answers to the calls. -/
def kept (calls : List Call) (answers : List Answer) : List Lexeme :=
  (calls.zip answers).foldl keep []

namespace Session

variable {s : Session} {calls later : List Call}

@[simp] theorem after_cons (s : Session) (call : Call) (calls : List Call) :
    s.after (call :: calls) = (s.step call).2.after calls := rfl

@[simp] theorem answers_cons (s : Session) (call : Call) (calls : List Call) :
    s.answers (call :: calls) = (s.step call).1 :: (s.step call).2.answers calls := rfl

@[simp] theorem after_append (s : Session) (calls later : List Call) :
    s.after (calls ++ later) = (s.after calls).after later := by
  induction calls generalizing s with
  | nil => rfl
  | cons call calls ih => exact ih _

@[simp] theorem answers_append (s : Session) (calls later : List Call) :
    s.answers (calls ++ later) = s.answers calls ++ (s.after calls).answers later := by
  induction calls generalizing s with
  | nil => rfl
  | cons call calls ih =>
    rw [List.cons_append, answers_cons, answers_cons, after_cons, ih, List.cons_append]

end Session

/-! ## What the calls preserve -/

/-- A lexer in use on a text, of which it has delivered the lexemes `xs` for good. It stands behind
them and may hold the next one. If one has just been delivered, it holds none, and that one can be
returned. -/
structure Follows (text : String) (xs : List Lexeme) (fresh : Bool) (s : Session) : Prop where
  stands : ∃ l, Passes (ofString text) xs l ∧
    (s.lexer = l ∨ ∃ x l', l.next = .ok (x, l') ∧ s.lexer = l'.pushBack x)
  returnable : fresh = true → s.lexer.held = none ∧ ∃ x ys l, xs = ys ++ [x] ∧ s.last = some x ∧
    Passes (ofString text) ys l ∧ l.next = .ok (x, s.lexer)

namespace Follows

variable {text : String} {fresh : Bool} {s : Session} {call : Call} {calls later : List Call}

theorem start (text : String) : Follows text [] false (.start text) :=
  ⟨⟨_, passes_nil rfl, .inl rfl⟩, nofun⟩

/-- Whether it holds the next lexeme or not, the lexer in use delivers what the one behind the
delivered lexemes does. -/
theorem next_eq (h : Follows text xs fresh s) :
    ∃ l, Passes (ofString text) xs l ∧ s.lexer.next = l.next := by
  obtain ⟨l, hpasses, hl | ⟨x, l', hn, hl⟩⟩ := h.stands
  · exact ⟨l, hpasses, by rw [hl]⟩
  · refine ⟨l, hpasses, ?_⟩
    have hl' : ({ l' with held := none } : Lexer) = l' := by rw [← (next_spec hn).1]
    rw [hl, next_pushBack, hl', hn]

theorem begins (h : Follows text xs fresh s) : (ofString text).Begins xs := by
  obtain ⟨l, hpasses, -⟩ := h.stands
  exact hpasses.begins

theorem next (h : Follows text xs fresh s) (hn : s.lexer.next = .ok (x, l₁)) :
    Follows text (xs ++ [x]) true ⟨l₁, some x⟩ := by
  obtain ⟨l, hpasses, heq⟩ := h.next_eq
  have hl : l.next = .ok (x, l₁) := heq ▸ hn
  exact ⟨⟨l₁, hpasses.next hl, .inl rfl⟩,
    fun _ => ⟨(next_spec hn).1, x, xs, l, rfl, rfl, hpasses, hl⟩⟩

theorem peek (h : Follows text xs fresh s) (hp : s.lexer.peek = .ok (x, l₁)) :
    Follows text xs false { s with lexer := l₁ } := by
  obtain ⟨l', hn, rfl⟩ := peek_eq_ok hp
  obtain ⟨l, hpasses, heq⟩ := h.next_eq
  exact ⟨⟨l, hpasses, .inr ⟨x, l', heq ▸ hn, rfl⟩⟩, nofun⟩

theorem back (h : Follows text xs true s) : ∃ x, s.last = some x ∧ s.lexer.held = none ∧
    Follows text xs.dropLast false ⟨s.lexer.pushBack x, none⟩ := by
  obtain ⟨hheld, x, ys, l, rfl, hlast, hpasses, hn⟩ := h.returnable rfl
  refine ⟨x, hlast, hheld, ⟨⟨l, ?_, .inr ⟨x, s.lexer, hn, rfl⟩⟩, nofun⟩⟩
  rwa [List.dropLast_concat]

/-- The first of several calls, if it does not fail: what is preserved, and that the others are
disciplined. -/
theorem step (h : Follows text xs fresh s) (hd : disciplined fresh (call :: calls) = true)
    (hok : ∀ cause, (s.step call).1 ≠ .failed cause) :
    ∃ fresh', Follows text (keep xs (call, (s.step call).1)) fresh' (s.step call).2 ∧
      disciplined fresh' calls = true := by
  cases call with
  | next =>
    cases hn : s.lexer.next with
    | error cause => exact absurd (by simp [Session.step, hn]) (hok cause)
    | ok r => exact ⟨true, by simpa [Session.step, hn, keep] using h.next hn, hd⟩
  | peek =>
    cases hp : s.lexer.peek with
    | error cause => exact absurd (by simp [Session.step, hp]) (hok cause)
    | ok r => exact ⟨false, by simpa [Session.step, hp, keep] using h.peek hp, hd⟩
  | back =>
    obtain ⟨hfresh, hd⟩ := Bool.and_eq_true_iff.mp hd
    obtain ⟨x, hlast, -, hback⟩ := (hfresh ▸ h).back
    exact ⟨false, by simpa [Session.step, hlast, keep] using hback, hd⟩
  | position => exact ⟨fresh, h, hd⟩

/-- Several calls of which none fails; the induction is on the calls, from the first one on. -/
theorem after (h : Follows text xs fresh s) (hd : disciplined fresh (calls ++ later) = true)
    (hok : ∀ cause, .failed cause ∉ s.answers calls) :
    ∃ fresh', Follows text ((calls.zip (s.answers calls)).foldl keep xs) fresh' (s.after calls) ∧
      disciplined fresh' later = true := by
  induction calls generalizing xs fresh s with
  | nil => exact ⟨fresh, h, hd⟩
  | cons call calls ih =>
    obtain ⟨fresh', h', hd'⟩ := h.step hd fun cause hcall =>
      hok cause (hcall ▸ List.mem_cons_self)
    exact ih h' hd' fun cause hcalls => hok cause (List.mem_cons_of_mem _ hcalls)

/-- The lexeme that comes next continues those delivered; lexing fails only behind all of them. -/
theorem step_next (h : Follows text xs fresh s) :
    (∃ x, (s.step .next).1 = .lexeme x ∧ (ofString text).Begins (xs ++ [x])) ∨
      ∃ cause, (s.step .next).1 = .failed cause ∧ (ofString text).lexemes = (xs, .error cause) := by
  obtain ⟨l, hpasses, heq⟩ := h.next_eq
  cases hn : s.lexer.next with
  | error cause =>
    exact .inr ⟨cause, by simp [Session.step, hn], hpasses.failed (heq ▸ hn)⟩
  | ok r => exact .inl ⟨r.1, by simp [Session.step, hn], (hpasses.next (heq ▸ hn)).begins⟩

end Follows

/-- What calls that fail nowhere leave behind. -/
theorem follows_run {text : String} {calls later : List Call}
    (hd : disciplined false (calls ++ later) = true) (hok : ∀ cause, .failed cause ∉ run text calls) :
    ∃ fresh, Follows text (kept calls (run text calls)) fresh ((Session.start text).after calls) ∧
      disciplined fresh later = true :=
  (Follows.start text).after hd hok

namespace Session

variable {s : Session} {calls : List Call}

/-- The lexeme that is shown is the one that comes next. -/
theorem step_peek (s : Session) : (s.step .peek).1 = (s.step .next).1 := by
  cases hn : s.lexer.next with
  | error cause => simp [step, hn, peek, bind, Except.bind]
  | ok r => simp [step, hn, peek, bind, Except.bind, pure, Except.pure]

/-- A lexer that holds a lexeme holds it until another one is asked for or returned. -/
theorem after_looks (hheld : s.lexer.held = some x)
    (hcalls : ∀ call ∈ calls, call = .peek ∨ call = .position) : s.after calls = s := by
  induction calls with
  | nil => rfl
  | cons call calls ih =>
    obtain ⟨hcall, hcalls⟩ := List.forall_mem_cons.mp hcalls
    have hstep : (s.step call).2 = s := by
      obtain rfl | rfl := hcall
      · obtain ⟨⟨rest, offset, held⟩, last⟩ := s
        cases hheld
        rfl
      · rfl
    rw [after_cons, hstep, ih hcalls]

/-- A lexeme that is shown comes next, however often it is looked at before. -/
theorem next_after_peek (hpeek : (s.step .peek).1 = .lexeme x)
    (hcalls : ∀ call ∈ calls, call = .peek ∨ call = .position) :
    (((s.step .peek).2.after calls).step .next).1 = .lexeme x := by
  cases hp : s.lexer.peek with
  | error cause => simp [step, hp] at hpeek
  | ok r =>
    obtain ⟨y, l⟩ := r
    obtain ⟨l', -, rfl⟩ := peek_eq_ok hp
    obtain rfl : y = x := by simpa [step, hp] using hpeek
    have hstep : (s.step .peek).2 = ⟨l'.pushBack y, s.last⟩ := by simp [step, hp]
    rw [hstep, after_looks (x := y) rfl hcalls]
    rfl

/-- The place of a lexer is not behind the start of the lexeme that comes next. -/
theorem position_le (hnext : (s.step .next).1 = .lexeme x) : s.lexer.position ≤ x.position := by
  cases hn : s.lexer.next with
  | error cause => simp [step, hn] at hnext
  | ok r =>
    obtain ⟨y, l⟩ := r
    obtain rfl : y = x := by simpa [step, hn] using hnext
    exact position_le_of_next hn

end Session

/-- What is known of a lexer in use on a text after some calls, `s` for what it is then and `xs` for
the lexemes delivered and not returned. -/
structure Faithful (text : String) (s : Session) (xs : List Lexeme) : Prop where
  /-- Those lexemes are the first ones of the text. -/
  begins : (ofString text).Begins xs
  /-- The lexeme that comes next continues them, unless lexing fails behind them. -/
  next : (∃ x, (s.step .next).1 = .lexeme x ∧ (ofString text).Begins (xs ++ [x])) ∨
    ∃ cause, (s.step .next).1 = .failed cause ∧ (ofString text).lexemes = (xs, .error cause)
  /-- A look gives what would come next, -/
  peek : (s.step .peek).1 = (s.step .next).1
  /-- and after a look that comes next, however often it is looked at and the place asked for. -/
  next_after_peek : ∀ (x : Lexeme) (looks : List Call), (s.step .peek).1 = .lexeme x →
    (∀ call ∈ looks, call = .peek ∨ call = .position) →
    (((s.step .peek).2.after looks).step .next).1 = .lexeme x
  /-- The place is not behind the start of the lexeme that comes next. -/
  position : ∀ (o : Nat) (x : Lexeme), (s.step .position).1 = .position o →
    (s.step .next).1 = .lexeme x → o ≤ x.position

/-- A lexer in use is faithful after disciplined calls of which none has failed. -/
theorem faithful_run {text : String} {calls : List Call} (hd : disciplined false calls = true)
    (hok : ∀ cause, .failed cause ∉ run text calls) :
    Faithful text ((Session.start text).after calls) (kept calls (run text calls)) := by
  obtain ⟨fresh, hfollows, -⟩ := follows_run (by rwa [List.append_nil]) hok
  refine ⟨hfollows.begins, hfollows.step_next, Session.step_peek _, fun x looks hpeek hlooks =>
    Session.next_after_peek hpeek hlooks, fun o x hposition hnext => ?_⟩
  cases hposition
  exact Session.position_le hnext

/-- A lexeme that may be returned is the last one that is kept, and no lexeme is held then. -/
theorem returnable_run {text : String} {calls : List Call}
    (hd : disciplined false (calls ++ [.back]) = true)
    (hok : ∀ cause, .failed cause ∉ run text calls) :
    ((Session.start text).after calls).lexer.held = none ∧
      ∃ x, ((Session.start text).after calls).last = some x ∧
        (kept calls (run text calls)).getLast? = some x := by
  obtain ⟨fresh, hfollows, hfresh⟩ := follows_run hd hok
  obtain ⟨hheld, x, ys, -, hkept, hlast, -⟩ :=
    hfollows.returnable (Bool.and_eq_true_iff.mp hfresh).1
  exact ⟨hheld, x, hlast, by rw [hkept, List.getLast?_concat]⟩

end CalendarQuery.Lexer
