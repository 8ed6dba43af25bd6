import CalendarQuery.Proofs.Token.Lookahead
import CalendarQuery.Token.Reader

/-!
# What readers do with a lexer

A reader says what it gives, not what it does to the lexer on the way. A trace of it says so: which
operations it carries out, one after the other, on which lexers.

* `Lexer.Use`: an operation on a lexer. `Lexer.Session.Serves`: a lexer in use that carries out
  operations, each on the lexer that the ones before it left.
* `Lexer.Orderly`: operations that any lexer in use can carry out, and that return a lexeme only
  right after it was delivered.
* `Lexer.Careful`: the same for a text, with nothing held where a lexeme is returned.
* `Reader.Trace`: the operations of a reader. `Reader.Traced`: it has a trace wherever it starts,
  with one rule for each way in which readers are made.
* `Reader.Trace.orderly`: the operations of a reader are orderly.
-/

namespace CalendarQuery

namespace Lexer

/-- An operation on a lexer. -/
inductive Use
  | next (lexer : Lexer)
  | peek (lexer : Lexer)
  | back (lexer : Lexer) (lexeme : Lexeme)
  deriving DecidableEq, Repr

namespace Use

/-- The lexer that it is carried out on. -/
def lexer : Use → Lexer
  | next l | peek l | back l _ => l

/-- The call to a lexer in use. -/
def call : Use → Call
  | next _ => .next
  | peek _ => .peek
  | back .. => .back

/-- The lexeme that is returned, if one is. -/
def returned : Use → Option Lexeme
  | back _ x => some x
  | _ => none

end Use

namespace Session

/-- The lexer in use carries out the operations: each on the lexer that the ones before it left,
none after one that failed, and what is returned is the lexeme that was delivered last. -/
def Serves (s : Session) : List Use → Prop
  | [] => True
  | u :: us => u.lexer = s.lexer ∧ (∀ x ∈ u.returned, s.last = some x) ∧
      (us ≠ [] → ∀ cause, (s.step u.call).1 ≠ .failed cause) ∧ (s.step u.call).2.Serves us

theorem Serves.append {s : Session} {us vs : List Use} (h : s.Serves us)
    (hok : ∀ cause, .failed cause ∉ s.answers (us.map Use.call))
    (h' : (s.after (us.map Use.call)).Serves vs) : s.Serves (us ++ vs) := by
  induction us generalizing s with
  | nil => exact h'
  | cons u us ih =>
    obtain ⟨hlexer, hlast, -, htail⟩ := h
    refine ⟨hlexer, hlast, fun _ cause hcause => ?_, ?_⟩
    · exact hok cause (by rw [List.map_cons, answers_cons, hcause]; exact List.mem_cons_self)
    · refine ih htail (fun cause hcause => ?_) h'
      exact hok cause (List.mem_cons_of_mem _ hcause)

end Session

theorem disciplined_of_false {calls : List Call} {fresh : Bool}
    (h : disciplined false calls = true) : disciplined fresh calls = true := by
  induction calls with
  | nil => rfl
  | cons call calls ih =>
    cases call with
    | next | peek => exact h
    | back => cases h
    | position => exact ih h

theorem disciplined_append {calls later : List Call} {fresh : Bool}
    (h : disciplined fresh calls = true) (h' : disciplined false later = true) :
    disciplined fresh (calls ++ later) = true := by
  induction calls generalizing fresh with
  | nil => exact disciplined_of_false h'
  | cons call calls ih =>
    cases call with
    | next | peek | position => exact ih h
    | back =>
      obtain ⟨hfresh, h⟩ := Bool.and_eq_true_iff.mp h
      exact Bool.and_eq_true_iff.mpr ⟨hfresh, ih h⟩

/-- Operations that any lexer in use can carry out that stands at `l`. They return a lexeme only
right after it was delivered, and if they come to their end, the lexer is left at `left`. -/
structure Orderly (l : Lexer) (us : List Use) (left : Option Lexer) : Prop where
  disciplined : disciplined false (us.map Use.call) = true
  serves : ∀ s : Session, s.lexer = l → s.Serves us
  leads : ∀ l' ∈ left, ∀ s : Session, s.lexer = l →
    (∀ cause, .failed cause ∉ s.answers (us.map Use.call)) ∧ (s.after (us.map Use.call)).lexer = l'

namespace Orderly

variable {l l₁ : Lexer} {us vs : List Use} {left : Option Lexer} {x : Lexeme}

theorem nil (l : Lexer) : Orderly l [] (some l) :=
  ⟨rfl, fun _ _ => trivial, by
    rintro _ ⟨⟩ s hs
    exact ⟨fun _ => List.not_mem_nil, hs⟩⟩

/-- Operations that come to their end, and then others. -/
theorem append (h : Orderly l us (some l₁)) (h' : Orderly l₁ vs left) :
    Orderly l (us ++ vs) left where
  disciplined := by
    rw [List.map_append]
    exact disciplined_append h.disciplined h'.disciplined
  serves s hs := by
    obtain ⟨hok, hs₁⟩ := h.leads l₁ rfl s hs
    exact (h.serves s hs).append hok (h'.serves _ hs₁)
  leads l' hl' s hs := by
    obtain ⟨hok, hs₁⟩ := h.leads l₁ rfl s hs
    obtain ⟨hok', hs'⟩ := h'.leads l' hl' _ hs₁
    rw [List.map_append, Session.answers_append, Session.after_append]
    exact ⟨fun cause hcause => (List.mem_append.mp hcause).elim (hok cause) (hok' cause), hs'⟩

/-- What the operations leave need not be known. -/
theorem mono {left' : Option Lexer} (h : Orderly l us left) (hleft : ∀ l' ∈ left', l' ∈ left) :
    Orderly l us left' :=
  ⟨h.disciplined, h.serves, fun l' hl' => h.leads l' (hleft l' hl')⟩

theorem cut (h : Orderly l us left) : Orderly l us none := h.mono nofun

theorem next (l : Lexer) : Orderly l [.next l] (l.next.toOption.map Prod.snd) where
  disciplined := rfl
  serves s hs := ⟨hs.symm, nofun, fun h => absurd rfl h, trivial⟩
  leads l' hl' s hs := by
    cases hn : l.next with
    | error cause => simp [hn, Except.toOption] at hl'
    | ok r =>
      obtain rfl : r.2 = l' := by simpa [hn, Except.toOption] using hl'
      subst hs
      simp [Session.answers, Session.after, Session.step, Use.call, hn]

theorem peek (l : Lexer) : Orderly l [.peek l] (l.peek.toOption.map Prod.snd) where
  disciplined := rfl
  serves s hs := ⟨hs.symm, nofun, fun h => absurd rfl h, trivial⟩
  leads l' hl' s hs := by
    cases hn : l.peek with
    | error cause => simp [hn, Except.toOption] at hl'
    | ok r =>
      obtain rfl : r.2 = l' := by simpa [hn, Except.toOption] using hl'
      subst hs
      simp [Session.answers, Session.after, Session.step, Use.call, hn]

theorem next_ok (hn : l.next = .ok (x, l₁)) : Orderly l [.next l] (some l₁) := by
  simpa [hn, Except.toOption] using next l

/-- A lexeme that is returned right after it was delivered. -/
theorem returned (hn : l.next = .ok (x, l₁)) :
    Orderly l [.next l, .back l₁ x] (some (l₁.pushBack x)) where
  disciplined := rfl
  serves s hs := by
    subst hs
    simp [Session.Serves, Use.lexer, Use.returned, Use.call, Session.step, hn]
  leads l' hl' s hs := by
    cases hl'
    subst hs
    simp [Session.answers, Session.after, Session.step, Use.call, hn]

end Orderly

/-- No lexeme is held where one is returned. -/
theorem Session.Serves.held_eq_none {text : String} {xs : List Lexeme} {fresh : Bool} {s : Session}
    {us : List Use} (h : s.Serves us) (hfollows : Follows text xs fresh s)
    (hd : disciplined fresh (us.map Use.call) = true) :
    ∀ l x, .back l x ∈ us → l.held = none := by
  induction us generalizing xs fresh s with
  | nil => exact fun _ _ hmem => (List.not_mem_nil hmem).elim
  | cons u us ih =>
    obtain ⟨hlexer, -, hok, htail⟩ := h
    intro l x hmem
    rcases List.mem_cons.mp hmem with rfl | hmem
    · obtain ⟨hfresh, -⟩ := Bool.and_eq_true_iff.mp hd
      obtain ⟨-, -, hheld, -⟩ := (hfresh ▸ hfollows).back
      have hl : l = s.lexer := hlexer
      rw [hl]
      exact hheld
    · obtain ⟨fresh', hfollows', hd'⟩ := hfollows.step hd (hok (List.ne_nil_of_mem hmem))
      exact ih htail hfollows' hd' l x hmem

/-- The operations are those of a lexer in use on the text, carried out one after the other. They
return a lexeme only right after it was delivered, and no lexeme is held then. -/
structure Careful (text : String) (us : List Use) : Prop where
  disciplined : disciplined false (us.map Use.call) = true
  serves : (Session.start text).Serves us
  empty : ∀ l x, .back l x ∈ us → l.held = none

theorem Orderly.careful {text : String} {us : List Use} {left : Option Lexer}
    (h : Orderly (ofString text) us left) : Careful text us where
  disciplined := h.disciplined
  serves := h.serves _ rfl
  empty := (h.serves _ rfl).held_eq_none (.start text) h.disciplined

end Lexer

namespace Reader

open Lexer (Use Orderly)

variable {α β : Type} {r : Reader α} {f : α → Reader β} {l l' : Lexer} {us vs : List Use}

/-- Started at the lexer `l`, the reader carries out these operations and comes to this result. -/
inductive Trace : {α : Type} → Reader α → Lexer → List Use → Except QueryError (α × Lexer) → Prop
  | pure {α : Type} (a : α) (l : Lexer) : Trace (Pure.pure a) l [] (.ok (a, l))
  | fail {α : Type} (cause : QueryError) (l : Lexer) :
    Trace (Reader.fail cause : Reader α) l [] (.error cause)
  | next (l : Lexer) : Trace Reader.next l [.next l] l.next
  | peek (l : Lexer) : Trace Reader.peek l [.peek l] l.peek
  | bind {α β : Type} {r : Reader α} {f : α → Reader β} {l l' : Lexer} {a : α} {us vs : List Use}
    {result : Except QueryError (β × Lexer)} : Trace r l us (.ok (a, l')) →
    Trace (f a) l' vs result → Trace (r >>= f) l (us ++ vs) result
  | bindFailed {α β : Type} {r : Reader α} {f : α → Reader β} {l : Lexer} {us : List Use}
    {cause : QueryError} : Trace r l us (.error cause) → Trace (r >>= f) l us (.error cause)

namespace Trace

variable {result : Except QueryError (α × Lexer)}

/-- A trace comes to what the reader gives. -/
theorem result_eq (h : Trace r l us result) : r l = result := by
  induction h with
  | pure _ _ | fail _ _ | next _ | peek _ => rfl
  | @bind _ _ r f l l' a _ _ _ _ _ ih ih' =>
    show (r l >>= fun p => f p.1 p.2) = _
    rw [ih]
    exact ih'
  | @bindFailed _ _ r f l _ cause _ ih =>
    show (r l >>= fun p => f p.1 p.2) = _
    rw [ih]
    rfl

/-- The operations of a reader are orderly. -/
theorem orderly (h : Trace r l us result) : Orderly l us (result.toOption.map Prod.snd) := by
  induction h with
  | pure _ l => exact .nil l
  | fail _ l => exact (Orderly.nil l).cut
  | next l => exact .next l
  | peek l => exact .peek l
  | bind _ _ ih ih' => exact ih.append ih'
  | bindFailed _ ih => exact ih

end Trace

/-- The reader has a trace wherever it starts. -/
def Traced (r : Reader α) : Prop := ∀ l, ∃ us result, Trace r l us result

namespace Traced

theorem pure (a : α) : Traced (Pure.pure a : Reader α) := fun l => ⟨_, _, .pure a l⟩

theorem fail (cause : QueryError) : Traced (Reader.fail cause : Reader α) :=
  fun l => ⟨_, _, .fail cause l⟩

theorem next : Traced Reader.next := fun l => ⟨_, _, .next l⟩

theorem peek : Traced Reader.peek := fun l => ⟨_, _, .peek l⟩

theorem bind (hr : Traced r) (hf : ∀ a, Traced (f a)) : Traced (r >>= f) := by
  intro l
  obtain ⟨us, cause | ⟨a, l'⟩, h⟩ := hr l
  · exact ⟨us, _, h.bindFailed⟩
  · obtain ⟨vs, result, h'⟩ := hf a l'
    exact ⟨us ++ vs, result, h.bind h'⟩

theorem accept (c : Char) : Traced (Reader.accept c) :=
  peek.bind fun _ => by
    split
    · exact next.bind fun _ => pure _
    · exact pure _

/-- A repeated reader; the induction is on what is left to read. -/
theorem many {step : Reader (Option α)} {takes : TakesSome step} (hstep : Traced step) :
    Traced (Reader.many step takes) := by
  intro l
  induction hn : l.size using Nat.strongRecOn generalizing l with
  | ind n ih =>
    subst hn
    rw [many_eq]
    obtain ⟨us, cause | ⟨_ | a, l'⟩, h⟩ := hstep l
    · exact ⟨us, _, h.bindFailed⟩
    · exact ⟨_, _, h.bind (.pure [] l')⟩
    · obtain ⟨vs, cause | ⟨as, l''⟩, h'⟩ := ih l'.size (takes _ _ _ h.result_eq) l' rfl
      · exact ⟨_, _, h.bind (f := fun o => _) h'.bindFailed⟩
      · exact ⟨_, _, h.bind (f := fun o => _) (h'.bind (.pure (a :: as) l''))⟩

end Traced

end Reader

end CalendarQuery
