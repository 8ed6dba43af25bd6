import CalendarQuery.Proofs.Judgment
import CalendarQuery.Proofs.Selection.Memos

/-!
# Compilations in which memos make no difference

What is remembered for a view is sound if the view comes to it when nothing is looked up. How deep
the attached filters go is not known beforehand, and so what the view comes to is told by a family of
compilations, one for each depth: from some depth on it does not change.

* `Compilation.Settles`: what a family comes to, and what it remembers on the way.
* `Memos.Sound`: what is remembered for a view is what the family of the view comes to.
* `Compilation.Transparent`: where memos are sound, a compilation gives what a family comes to, and it
  does not matter how many of the views have been computed before.
* `Selection.transparent_viewFilter`: views that are looked up, beside views that never are.
-/

namespace CalendarQuery

namespace Compilation

variable {α β : Type} {d : Nat → Compilation α} {a a' : α} {log log' : List (String × Filter)}

/-! ## What a family comes to -/

/-- From some depth on, the compilations of the family give the value and remember the log, whatever
has been remembered before. -/
def Settles (d : Nat → Compilation α) (a : α) (log : List (String × Filter)) : Prop :=
  ∃ depth, ∀ n, depth ≤ n → ∀ m, (d n).outcome m = (.ok a, m.rememberAll log)

theorem settles_pure (a : α) : Settles (fun _ => Pure.pure a) a [] := ⟨0, fun _ _ _ => rfl⟩

theorem Settles.bind {f : Nat → α → Compilation β} {b : β} (h : Settles d a log)
    (hf : Settles (fun n => f n a) b log') : Settles (fun n => d n >>= f n) b (log ++ log') := by
  obtain ⟨depth, h⟩ := h
  obtain ⟨depth', hf⟩ := hf
  refine ⟨max depth depth', fun n hn m => ?_⟩
  rw [outcome_bind_of_ok (h n (Nat.le_trans (Nat.le_max_left ..) hn) m),
    hf n (Nat.le_trans (Nat.le_max_right ..) hn), Memos.rememberAll_append]

/-- A family comes to one value, and to logs that make the same memos. -/
theorem Settles.unique (h : Settles d a log) (h' : Settles d a' log') :
    a = a' ∧ ∀ m : Memos, m.rememberAll log = m.rememberAll log' := by
  obtain ⟨depth, h⟩ := h
  obtain ⟨depth', h'⟩ := h'
  have heq : ∀ m : Memos, ((.ok a, m.rememberAll log) : Except QueryError α × Memos) =
      (.ok a', m.rememberAll log') := fun m =>
    (h _ (Nat.le_max_left depth depth') m).symm.trans (h' _ (Nat.le_max_right depth depth') m)
  exact ⟨Except.ok.inj (Prod.mk.inj (heq .empty)).1, fun m => (Prod.mk.inj (heq m)).2⟩

/-- A family that starts with one compilation more. -/
theorem Settles.of_succ {e : Nat → Compilation α} (h : Settles d a log)
    (he : ∀ n, e (n + 1) = d n) : Settles e a log := by
  obtain ⟨depth, h⟩ := h
  refine ⟨depth + 1, fun n hn m => ?_⟩
  cases n with
  | zero => omega
  | succ n => rw [he, h n (Nat.le_of_succ_le_succ hn)]

end Compilation

namespace Memos

open Compilation

variable {views : String → Nat → Compilation Filter} {m : Memos} {view : String} {f : Filter}
  {log : List (String × Filter)}

/-! ## Sound memos -/

/-- What is remembered for a view is what the family of the view comes to, and whatever is asked for
on the way is remembered as well. -/
def Sound (views : String → Nat → Compilation Filter) (m : Memos) : Prop :=
  ∀ view f, m.find? view = some f →
    ∃ log, Settles (views view) f log ∧ ∀ entry ∈ log, (m.find? entry.1).isSome

theorem sound_empty : empty.Sound views := fun _ _ h => by cases h

theorem Sound.getD_eq (hm : m.Sound views) (h : Settles (views view) f log) :
    (m.find? view).getD f = f := by
  cases hmemo : m.find? view with
  | none => rfl
  | some g =>
    obtain ⟨log', hg, -⟩ := hm view g hmemo
    exact (hg.unique h).1

theorem Sound.remember (hm : m.Sound views) (h : Settles (views view) f log)
    (hlog : ∀ entry ∈ log, (m.find? entry.1).isSome) : (m.remember view f).Sound views := by
  have hmono : ∀ {log : List (String × Filter)}, (∀ entry ∈ log, (m.find? entry.1).isSome) →
      ∀ entry ∈ log, ((m.remember view f).find? entry.1).isSome :=
    fun h entry hentry => isSome_remember.mpr (.inl (h entry hentry))
  intro other g hg
  by_cases hother : other = view
  · subst hother
    rw [find?_remember_self, hm.getD_eq h] at hg
    obtain rfl := Option.some.inj hg
    exact ⟨log, h, hmono hlog⟩
  · rw [find?_remember_of_ne m f hother] at hg
    obtain ⟨log', hsettles, hlog'⟩ := hm other g hg
    exact ⟨log', hsettles, hmono hlog'⟩

/-- Whatever views have filters there have filters here. -/
def Below (m m' : Memos) : Prop := ∀ view, (m.find? view).isSome → (m'.find? view).isSome

theorem below_empty (m : Memos) : empty.Below m := fun _ h => by cases h

theorem Below.eq_none {m' : Memos} (h : m.Below m') (hnone : m'.find? view = none) :
    m.find? view = none := by
  rw [← Option.not_isSome_iff_eq_none] at hnone ⊢
  exact fun hsome => hnone (h view hsome)

theorem Below.rememberAll {m' : Memos} (h : m.Below m') (log : List (String × Filter)) :
    (m.rememberAll log).Below (m'.rememberAll log) := fun view hview =>
  isSome_rememberAll.mpr ((isSome_rememberAll.mp hview).imp_left (h view))

end Memos

namespace Compilation

variable {α β : Type} {views : String → Nat → Compilation Filter} {V : α → Prop} {W : β → Prop}
  {c : Compilation α} {d : Nat → Compilation α}

/-! ## Compilations beside families -/

/-- A compilation keeps memos sound. Where they are, a value that it gives is what the family comes
to, and so is what it remembers; and it gives the value again where more has been remembered. -/
structure Transparent (views : String → Nat → Compilation Filter) (V : α → Prop)
    (c : Compilation α) (d : Nat → Compilation α) : Prop where
  sound : ∀ {m m' : Memos} {r : Except QueryError α}, m.Sound views → c.outcome m = (r, m') →
    m'.Sound views
  settles : ∀ {m m' : Memos} {a : α}, m.Sound views → c.outcome m = (.ok a, m') →
    V a ∧ ∃ log, Settles d a log ∧ m' = m.rememberAll log
  again : ∀ {m m' m₁ : Memos} {a : α}, m.Sound views → m₁.Sound views → m.Below m₁ →
    c.outcome m = (.ok a, m') → ∃ m₁', c.outcome m₁ = (.ok a, m₁')

namespace Transparent

theorem pure {a : α} (h : V a) : Transparent views V (Pure.pure a) fun _ => Pure.pure a where
  sound := by
    rintro m _ _ hm ⟨⟩
    exact hm
  settles := by
    rintro m _ _ - ⟨⟩
    exact ⟨h, [], settles_pure a, rfl⟩
  again := by
    rintro _ _ m₁ _ - - - ⟨⟩
    exact ⟨m₁, rfl⟩

/-- A failure is beside any family. -/
theorem throw (cause : QueryError) (d : Nat → Compilation α) :
    Transparent views V (MonadExcept.throw cause) d where
  sound := by
    rintro m _ _ hm ⟨⟩
    exact hm
  settles _ h := by cases h
  again _ _ _ h := by cases h

theorem bind {f : α → Compilation β} {g : Nat → α → Compilation β}
    (hc : Transparent views V c d) (hf : ∀ a, V a → Transparent views W (f a) fun n => g n a) :
    Transparent views W (c >>= f) fun n => d n >>= g n where
  sound := by
    intro m m' r hm h
    rcases hr : c.outcome m with ⟨cause | a, m₁⟩
    · rw [outcome_bind_of_error hr] at h
      cases h
      exact hc.sound hm hr
    · rw [outcome_bind_of_ok hr] at h
      exact (hf a (hc.settles hm hr).1).sound (hc.sound hm hr) h
  settles := by
    intro m m' b hm h
    obtain ⟨a, m₁, h₁, h₂⟩ := bind_eq_ok.mp h
    have hm₁ := hc.sound hm h₁
    obtain ⟨ha, log, hlog, rfl⟩ := hc.settles hm h₁
    obtain ⟨hb, log', hlog', rfl⟩ := (hf a ha).settles hm₁ h₂
    exact ⟨hb, log ++ log', hlog.bind hlog', (Memos.rememberAll_append ..).symm⟩
  again := by
    intro m m' k b hm hk hbelow h
    obtain ⟨a, m₁, h₁, h₂⟩ := bind_eq_ok.mp h
    obtain ⟨k₁, hk₁⟩ := hc.again hm hk hbelow h₁
    have hm₁ := hc.sound hm h₁
    have hsound := hc.sound hk hk₁
    -- both times the same views have been asked for
    obtain ⟨ha, log, hlog, rfl⟩ := hc.settles hm h₁
    obtain ⟨-, log', hlog', rfl⟩ := hc.settles hk hk₁
    rw [← (hlog.unique hlog').2 k] at hsound hk₁
    obtain ⟨k₂, hk₂⟩ := (hf a ha).again hm₁ hsound (hbelow.rememberAll log) h₂
    exact ⟨k₂, bind_eq_ok.mpr ⟨a, _, hk₁, hk₂⟩⟩

theorem mapError (f : QueryError → QueryError) (hc : Transparent views V c d) :
    Transparent views V (Compilation.mapError f c) d where
  sound := by
    intro m m' r hm h
    rw [outcome_mapError] at h
    cases h
    exact hc.sound hm rfl
  settles hm h := hc.settles hm (mapError_eq_ok.mp h)
  again hm hm₁ hbelow h := by
    obtain ⟨m₁', h₁⟩ := hc.again hm hm₁ hbelow (mapError_eq_ok.mp h)
    exact ⟨m₁', mapError_eq_ok.mpr h₁⟩

theorem of_succ {e : Nat → Compilation α} (hc : Transparent views V c d)
    (he : ∀ n, e (n + 1) = d n) : Transparent views V c e where
  sound := hc.sound
  settles hm h := by
    obtain ⟨ha, log, hlog, hm'⟩ := hc.settles hm h
    exact ⟨ha, log, hlog.of_succ he, hm'⟩
  again := hc.again

end Transparent

theorem judgment_transparent (views : String → Nat → Compilation Filter) :
    Judgment (fun _ => True) fun V c d => Transparent views V c d where
  pure := Transparent.pure
  throw _ := Transparent.throw _ _
  bind := Transparent.bind

end Compilation

/-! ## Views -/

namespace Selection

open Compilation

variable {views : String → Nat → Compilation Filter} {s : Selection} {name : String} {view : View}

/-- The members of a view together. -/
def members (s : Selection) (name : String) : Compilation Filter := do
  match ← Compilation.ofLookup (s.hierarchy.view name) with
  | none => throw (.unknownView name)
  | some view => s.compile (.virtualPaths view.collections)

theorem members_of_view (hview : s.hierarchy.view name = .ok (some view)) :
    s.members name = s.compile (.virtualPaths view.collections) := by
  unfold members
  rw [hview]
  rfl

/-- A view as a filter that is computed even if it is remembered. -/
def computed (s : Selection) (name : String) : Compilation Filter := do
  let filter ← s.members name
  let _ ← Compilation.remember name filter
  return .view name filter

theorem settles_computed {t : Nat → Selection} {f : Filter} {log : List (String × Filter)}
    (h : Settles (fun n => (t n).members name) f log) :
    Settles (fun n => (t n).computed name) (.view name f) (log ++ [(name, f)]) :=
  h.bind ⟨0, fun _ _ m => outcome_bind_of_ok (outcome_remember name f m)⟩

section Views

variable {t : Nat → Selection} {m m' : Memos} {g : Filter}
  (hview : s.hierarchy.view view.name = .ok (some view))
  (hmembers : Transparent (fun name n => (t n).members name) (fun _ => True)
    (s.compile (.virtualPaths view.collections)) fun n => (t n).members view.name)

include hview hmembers

/-- What a view gives, it comes to. -/
theorem settles_viewFilter (hm : m.Sound fun name n => (t n).members name)
    (h : (s.viewFilter view.name).outcome m = (.ok g, m')) :
    ∃ f log, g = .view view.name f ∧ Settles (fun n => (t n).members view.name) f log ∧
      m' = m.rememberAll (log ++ [(view.name, f)]) := by
  cases hmemo : m.find? view.name with
  | some f =>
    rw [viewFilter_of_memo hview hmemo] at h
    cases h
    obtain ⟨log, hlog, hknown⟩ := hm _ _ hmemo
    refine ⟨f, log, rfl, hlog, (Memos.rememberAll_of_isSome fun entry hentry => ?_).symm⟩
    rcases List.mem_append.mp hentry with hentry | hentry
    · exact hknown entry hentry
    · rw [List.mem_singleton.mp hentry, hmemo]
      rfl
  | none =>
    rcases hr : (s.compile (.virtualPaths view.collections)).outcome m with ⟨cause | f, m₁⟩
    · obtain ⟨cause', hcause⟩ := viewFilter_of_error hview hmemo hr
      rw [hcause] at h
      cases h
    · have hm₁ := hmembers.sound hm hr
      obtain ⟨-, log, hlog, rfl⟩ := hmembers.settles hm hr
      rw [viewFilter_of_members hview hmemo hr, hm₁.getD_eq hlog] at h
      cases h
      exact ⟨f, log, rfl, hlog, (m.rememberAll_append log [(view.name, f)]).symm⟩

theorem sound_viewFilter {r : Except QueryError Filter}
    (hm : m.Sound fun name n => (t n).members name)
    (h : (s.viewFilter view.name).outcome m = (r, m')) :
    m'.Sound fun name n => (t n).members name := by
  cases hmemo : m.find? view.name with
  | some f =>
    rw [viewFilter_of_memo hview hmemo] at h
    cases h
    exact hm
  | none =>
    rcases hr : (s.compile (.virtualPaths view.collections)).outcome m with ⟨cause | f, m₁⟩
    · obtain ⟨cause', hcause⟩ := viewFilter_of_error hview hmemo hr
      rw [hcause] at h
      cases h
      exact hmembers.sound hm hr
    · have hm₁ := hmembers.sound hm hr
      obtain ⟨-, log, hlog, rfl⟩ := hmembers.settles hm hr
      rw [viewFilter_of_members hview hmemo hr] at h
      cases h
      refine hm₁.remember hlog fun entry hentry => ?_
      exact Memos.isSome_rememberAll.mpr (.inr (List.mem_map_of_mem hentry))

/-- If the members of a view come to the same when they are compiled as when nothing is looked up,
then so does the view. -/
theorem transparent_viewFilter :
    Transparent (fun name n => (t n).members name) (fun _ => True) (s.viewFilter view.name)
      fun n => (t n).computed view.name where
  sound := sound_viewFilter hview hmembers
  settles hm h := by
    obtain ⟨f, log, rfl, hlog, rfl⟩ := settles_viewFilter hview hmembers hm h
    exact ⟨trivial, _, settles_computed hlog, rfl⟩
  again := by
    intro m m' k g hm hk hbelow h
    obtain ⟨f, log, rfl, hlog, -⟩ := settles_viewFilter hview hmembers hm h
    cases hmemo : k.find? view.name with
    | some f' =>
      obtain ⟨log', hlog', -⟩ := hk _ _ hmemo
      obtain rfl := (hlog.unique hlog').1
      exact ⟨k, viewFilter_of_memo hview hmemo⟩
    | none =>
      -- then the view is computed both times
      have hmemo' := hbelow.eq_none hmemo
      rcases hr : (s.compile (.virtualPaths view.collections)).outcome m with ⟨cause | f', m₁⟩
      · obtain ⟨cause', hcause⟩ := viewFilter_of_error hview hmemo' hr
        rw [hcause] at h
        cases h
      · obtain ⟨-, log', hlog', -⟩ := hmembers.settles hm hr
        obtain rfl := (hlog.unique hlog').1
        obtain ⟨k₁, hk₁⟩ := hmembers.again hm hk hbelow hr
        rw [viewFilter_of_members hview hmemo hk₁, (hmembers.sound hk hk₁).getD_eq hlog]
        exact ⟨_, rfl⟩

end Views

end Selection

end CalendarQuery
