import CalendarQuery.Hierarchy.Fault
import CalendarQuery.Proofs.Hierarchy.Chain

/-!
# Hierarchies whose store fails

A hierarchy degrades to another one if that gives the same answers or fails because of the store
behind it. Then the chains of paths are the same or the store fails on the way.

* `Hierarchy.OrFails`: an answer or a failure of the store; `OrFails.bind` for calls in sequence.
* `Hierarchy.Degrades`: the same for all calls; `degrades_withFaults` for failing calls.
* `Hierarchy.Degrades.chain`: the chains of paths.
-/

namespace CalendarQuery.Hierarchy

/-- The answer is what is expected, or the store behind the hierarchy failed. -/
def OrFails {α : Type} (expected answer : Except LookupError α) : Prop :=
  answer = expected ∨ ∃ reason, answer = .error (.backend reason)

section

variable {α β : Type} {expected answer : Except LookupError α}

theorem orFails_self (answer : Except LookupError α) : OrFails answer answer := .inl rfl

theorem orFails_backend (expected : Except LookupError α) (reason : String) :
    OrFails expected (.error (.backend reason)) := .inr ⟨reason, rfl⟩

theorem OrFails.cases (h : OrFails expected answer) :
    (∃ reason, answer = .error (.backend reason)) ∨
      (∃ cause, expected = .error cause ∧ answer = .error cause) ∨
      ∃ a, expected = .ok a ∧ answer = .ok a := by
  obtain rfl | hfails := h
  · cases answer with
    | error cause => exact .inr (.inl ⟨cause, rfl, rfl⟩)
    | ok a => exact .inr (.inr ⟨a, rfl, rfl⟩)
  · exact .inl hfails

/-- What goes on from the answer goes on from what is expected, or the store failed before. -/
theorem OrFails.bind {f g : α → Except LookupError β} (h : OrFails expected answer)
    (hf : ∀ a, expected = .ok a → answer = .ok a → OrFails (f a) (g a)) :
    OrFails (expected >>= f) (answer >>= g) := by
  obtain ⟨reason, rfl⟩ | ⟨cause, rfl, rfl⟩ | ⟨a, rfl, rfl⟩ := h.cases
  · exact orFails_backend _ reason
  · exact orFails_self _
  · exact hf a rfl rfl

end

/-! ## Walks, call by call -/

section

variable {h : Hierarchy}

theorem bind_eq_match {α β : Type} (r : Except LookupError α) (f : α → Except LookupError β) :
    r >>= f = match r with
      | .error cause => .error cause
      | .ok a => f a := by
  cases r <;> rfl

theorem follow_of_not_mem {fresh : List String} {c : Collection} (halias : c.isAlias = true)
    (hm : c.path ∉ fresh) : h.follow fresh c = .error (.aliasCycle c.path) := by
  rw [Hierarchy.follow, if_pos halias, dif_neg hm]

theorem follow_of_no_target {fresh : List String} {c : Collection} (halias : c.isAlias = true)
    (hm : c.path ∈ fresh) (htarget : c.target = none) : h.follow fresh c = .ok ⟨[c], none⟩ := by
  rw [Hierarchy.follow, if_pos halias, dif_pos hm]
  simp only [htarget]

theorem follow_of_mem {fresh : List String} {c : Collection} {target : String}
    (halias : c.isAlias = true) (hm : c.path ∈ fresh) (htarget : c.target = some target) :
    h.follow fresh c = (do
      match ← h.collection target with
      | none => return ⟨[c], none⟩
      | some d =>
        let run ← h.follow (without fresh c.path) d
        return ⟨c :: run.aliases, run.target⟩) := by
  rw [Hierarchy.follow, if_pos halias, dif_pos hm]
  simp only [htarget]
  rcases h.collection target with _ | _ | d
  · rfl
  · rfl
  · simp only [bind_eq_match]
    cases h.follow (without fresh c.path) d <;> rfl

theorem descend_cons (h : Hierarchy) (parent segment : String) (segments : List String) :
    h.descend parent (segment :: segments) = (do
      match ← h.collection (Text.joinPath parent segment) with
      | none => return []
      | some c =>
        let run ← h.follow h.paths c
        match AliasRun.reached run with
        | none => return passedAliases run
        | some d =>
          let steps ← h.descend d.path segments
          return passedAliases run ++ ⟨d, segments.isEmpty⟩ :: steps) := by
  rw [Hierarchy.descend]
  rcases h.collection (Text.joinPath parent segment) with _ | _ | c
  · rfl
  · rfl
  simp only [bind_eq_match]
  rcases h.follow h.paths c with _ | run
  · rfl
  simp only
  rcases AliasRun.reached run with _ | d
  · rfl
  simp only
  cases h.descend d.path segments <;> rfl

theorem chain_eq (h : Hierarchy) {vpath : String} (habsolute : Text.isAbsolute vpath = true) :
    h.chain vpath = (do
      let root ← h.collection "/"
      let steps ← h.descend "/" (Text.pathSegments vpath)
      return (root.toList.map fun c => ⟨c, (Text.pathSegments vpath).isEmpty⟩) ++ steps) := by
  rw [Hierarchy.chain, if_pos habsolute]
  rcases h.collection "/" with _ | root
  · rfl
  simp only [bind_eq_match]
  cases h.descend "/" (Text.pathSegments vpath) <;> rfl

end

/-- What `h'` answers is what `h` answers, or the store behind it failed. -/
structure Degrades (h h' : Hierarchy) : Prop where
  collection : ∀ path, OrFails (h.collection path) (h'.collection path)
  children : ∀ path, OrFails (h.children path) (h'.children path)
  categoryNamed : ∀ name, OrFails (h.categoryNamed name) (h'.categoryNamed name)
  categoryWithUid : ∀ uid, OrFails (h.categoryWithUid uid) (h'.categoryWithUid uid)
  view : ∀ name, OrFails (h.view name) (h'.view name)

/-- Failing calls, without hidden collections or lost targets. -/
theorem degrades_withFaults (h : Hierarchy) (failing : List String) :
    h.Degrades (h.withFaults ⟨failing, [], []⟩) := by
  have hguard : ∀ {α : Type} (method argument : String) {expected answer : Except LookupError α},
      answer = expected →
      OrFails expected (Faults.guard ⟨failing, [], []⟩ method argument answer) := by
    rintro α method argument expected _ rfl
    unfold Faults.guard
    simp only
    split
    · exact orFails_backend _ _
    · exact orFails_self _
  have hsee : Faults.see ⟨failing, [], []⟩ = id := rfl
  refine ⟨fun path => hguard _ _ ?_, fun path => hguard _ _ ?_, fun name => hguard _ _ rfl,
    fun uid => hguard _ _ rfl, fun name => hguard _ _ rfl⟩
  · rcases h.collection path <;> simp [hsee, Except.map]
  · rcases h.children path <;> simp [hsee, Except.map]

/-- A collection that both hierarchies can answer with. -/
def Shared (h h' : Hierarchy) (c : Collection) : Prop := c.path ∈ h.paths ∧ c.path ∈ h'.paths

theorem answers_paths (h : Hierarchy) : h.Answers fun c => c.path ∈ h.paths where
  collection := h.collection_mem
  children hcs _ hc := h.children_mem hcs hc
  origin _ hc := hc

variable {h h' : Hierarchy}

/-- Following aliases where the same ones may be entered; the induction is on those that may be. -/
theorem Degrades.follow (hd : h.Degrades h') {fresh freshIn : List String}
    (hfresh : ∀ {d : Collection}, Shared h h' d → (d.path ∈ fresh ↔ d.path ∈ freshIn))
    {c : Collection} (hc : Shared h h' c) :
    OrFails (h.follow fresh c) (h'.follow freshIn c) := by
  induction hn : fresh.length using Nat.strongRecOn generalizing fresh freshIn c with
  | ind n ih =>
    subst hn
    cases halias : c.isAlias with
    | false =>
      rw [follow_of_not_alias halias, follow_of_not_alias halias]
      exact orFails_self _
    | true =>
      by_cases hm : c.path ∈ fresh
      · have hmIn := (hfresh hc).mp hm
        cases htarget : c.target with
        | none =>
          rw [follow_of_no_target halias hm htarget, follow_of_no_target halias hmIn htarget]
          exact orFails_self _
        | some target =>
          rw [follow_of_mem halias hm htarget, follow_of_mem halias hmIn htarget]
          refine (hd.collection target).bind fun o hexpected hanswer => ?_
          cases o with
          | none => exact orFails_self _
          | some d =>
            have hfresh' : ∀ {e : Collection}, Shared h h' e →
                (e.path ∈ without fresh c.path ↔ e.path ∈ without freshIn c.path) :=
              fun he => by rw [mem_without, mem_without, hfresh he]
            have hrun := ih _ (length_without_lt hm) hfresh'
              ⟨h.collection_mem hexpected, h'.collection_mem hanswer⟩ rfl
            exact hrun.bind fun run _ _ => orFails_self _
      · have hmIn : c.path ∉ freshIn := fun hmIn => hm ((hfresh hc).mpr hmIn)
        rw [follow_of_not_mem halias hm, follow_of_not_mem halias hmIn]
        exact orFails_self _

theorem Degrades.descend (hd : h.Degrades h') (parent : String) (segments : List String) :
    OrFails (h.descend parent segments) (h'.descend parent segments) := by
  induction segments generalizing parent with
  | nil => exact orFails_self _
  | cons segment segments ih =>
    rw [descend_cons, descend_cons]
    refine (hd.collection _).bind fun o hexpected hanswer => ?_
    cases o with
    | none => exact orFails_self _
    | some c =>
      have hrun := hd.follow (fun he => iff_of_true he.1 he.2)
        ⟨h.collection_mem hexpected, h'.collection_mem hanswer⟩
      refine hrun.bind fun run _ _ => ?_
      cases AliasRun.reached run with
      | none => exact orFails_self _
      | some d => exact (ih d.path).bind fun steps _ _ => orFails_self _

/-- The chain of a path is the same, or the store fails on the way. -/
theorem Degrades.chain (hd : h.Degrades h') (vpath : String) :
    OrFails (h.chain vpath) (h'.chain vpath) := by
  by_cases habsolute : Text.isAbsolute vpath = true
  · rw [chain_eq _ habsolute, chain_eq _ habsolute]
    exact (hd.collection "/").bind fun root _ _ =>
      (hd.descend "/" _).bind fun steps _ _ => orFails_self _
  · rw [Hierarchy.chain, Hierarchy.chain, if_neg habsolute, if_neg habsolute]
    exact orFails_self _

end CalendarQuery.Hierarchy
