import CalendarQuery.Text.Scanner

/-!
# What scanners read

The result of a scanner on a text, one equation for each combination.

* `Scanner.bind_apply`, `Scanner.orElse_apply`, `Scanner.char_cons`: the equations.
* `Scanner.span_append`: a run of characters is read up to the first that is none of them.
* `Scanner.many_of_some`, `Scanner.many_of_none`: one more round, and the end.
* `Scanner.Pieces`: a text that is read piece by piece, wherever the pieces end.
-/

namespace CalendarQuery.Scanner

variable {α β : Type}

/-! ## Combinations -/

@[simp] theorem pure_apply (a : α) (cs : List Char) : (pure a : Scanner α) cs = some (a, cs) := rfl

@[simp] theorem bind_apply (p : Scanner α) (f : α → Scanner β) (cs : List Char) :
    (p >>= f) cs = (p cs).bind fun x => f x.1 x.2 := rfl

@[simp] theorem map_apply (f : α → β) (p : Scanner α) (cs : List Char) :
    (f <$> p) cs = (p cs).map fun x => (f x.1, x.2) := by
  cases h : p cs <;> simp [Functor.map, StateT.map, h]

@[simp] theorem seqRight_apply (p : Scanner α) (q : Scanner β) (cs : List Char) :
    (p *> q) cs = (p cs).bind fun x => q x.2 := rfl

@[simp] theorem seqLeft_apply (p : Scanner α) (q : Scanner β) (cs : List Char) :
    (p <* q) cs = (p cs).bind fun x => (q x.2).map fun y => (x.1, y.2) := by
  rw [seqLeft_eq_bind]
  cases h : p cs with
  | none => simp [h]
  | some x => cases hq : q x.2 <;> simp [h, hq]

@[simp] theorem orElse_apply (p q : Scanner α) (cs : List Char) :
    (p <|> q) cs = (p cs).or (q cs) := by
  cases h : p cs <;> simp [HOrElse.hOrElse, OrElse.orElse, Alternative.orElse, StateT.orElse, h]

@[simp] theorem lift_apply (o : Option α) (cs : List Char) :
    (StateT.lift o : Scanner α) cs = o.map (·, cs) := by
  cases o <;> rfl

@[simp] theorem maybe_apply (p : Scanner α) (cs : List Char) :
    maybe p cs = ((p cs).map fun x => (some x.1, x.2)).or (some (none, cs)) := by
  simp [maybe]

@[simp] theorem ahead_apply (p : Scanner α) (cs : List Char) :
    ahead p cs = (p cs).map fun _ => ((), cs) := rfl

/-! ## Characters -/

@[simp] theorem satisfy_cons (test : Char → Bool) (c : Char) (cs : List Char) :
    satisfy test (c :: cs) = if test c then some (c, cs) else none := rfl

@[simp] theorem satisfy_nil (test : Char → Bool) : satisfy test [] = none := rfl

@[simp] theorem char_cons (c d : Char) (cs : List Char) :
    char c (d :: cs) = if d = c then some ((), cs) else none := by
  by_cases h : d = c <;> simp [char, h]

@[simp] theorem char_nil (c : Char) : char c [] = none := rfl

@[simp] theorem word_nil (cs : List Char) : word [] cs = some ((), cs) := rfl

@[simp] theorem word_cons (c : Char) (w cs : List Char) :
    word (c :: w) cs = (char c cs).bind fun x => word w x.2 := rfl

/-- A run of characters is read up to the first that is none of them. -/
theorem span_append {test : Char → Bool} (ds : List Char) {rest : List Char}
    (hds : ∀ c ∈ ds, test c = true) (hrest : ∀ c ∈ rest.head?, test c = false) :
    span test (ds ++ rest) = some (ds, rest) := by
  have htake : rest.takeWhile test = [] ∧ rest.dropWhile test = rest := by
    cases rest with
    | nil => exact ⟨rfl, rfl⟩
    | cons c cs => simp [hrest c rfl]
  simp [span, List.takeWhile_append_of_pos hds, List.dropWhile_append_of_pos hds, htake]

theorem span_of_head {test : Char → Bool} {rest : List Char}
    (hrest : ∀ c ∈ rest.head?, test c = false) : span test rest = some ([], rest) :=
  span_append [] (by simp) hrest

theorem span1_append {test : Char → Bool} {ds rest : List Char} (hne : ds ≠ [])
    (hds : ∀ c ∈ ds, test c = true) (hrest : ∀ c ∈ rest.head?, test c = false) :
    span1 test (ds ++ rest) = some (ds, rest) := by
  obtain ⟨d, ds, rfl⟩ := List.exists_cons_of_ne_nil hne
  have hspan := span_append ds (fun c hc => hds c (List.mem_cons_of_mem d hc)) hrest
  simp [span1, hds d List.mem_cons_self, hspan]

theorem span1_cons {test : Char → Bool} {c : Char} (cs : List Char) (h : test c = true) :
    span1 test (c :: cs) = some (c :: cs.takeWhile test, cs.dropWhile test) := by
  simp [span1, span, h]

theorem span1_of_head {test : Char → Bool} {cs : List Char}
    (h : ∀ c ∈ cs.head?, test c = false) : span1 test cs = none := by
  cases cs with
  | nil => rfl
  | cons c cs => simp [span1, h c rfl]

/-! ## Repetition -/

/-- The end of a repetition. -/
theorem many_of_none {p : Scanner α} {cs : List Char} (h : p cs = none) :
    many p cs = some ([], cs) := by
  rw [many, manyFrom]
  simp [h]

/-- One more round. -/
theorem many_of_some {p : Scanner α} {cs mid : List Char} {a : α} (h : p cs = some (a, mid))
    (hlt : mid.length < cs.length) :
    many p cs = (many p mid).map fun x => (a :: x.1, x.2) := by
  simp only [many, Option.map_some]
  rw [manyFrom]
  simp [h, hlt]

/-! ## Texts in pieces -/

/-- What is read again and again makes up a text. -/
def Pieces (p : Scanner (List α)) (cs : List Char) (text : List α) (rest : List Char) : Prop :=
  ∃ parts, many p cs = some (parts, rest) ∧ parts.flatten = text

namespace Pieces

variable {p : Scanner (List α)} {cs mid rest : List Char} {text part : List α}

theorem stop (h : p cs = none) : Pieces p cs [] cs := ⟨[], many_of_none h, rfl⟩

theorem step (h : p cs = some (part, mid)) (hlt : mid.length < cs.length)
    (hmid : Pieces p mid text rest) : Pieces p cs (part ++ text) rest := by
  obtain ⟨parts, hmany, rfl⟩ := hmid
  exact ⟨part :: parts, by rw [many_of_some h hlt, hmany]; rfl, by simp⟩

theorem of_step (h : p cs = some (part, mid)) (hlt : mid.length < cs.length)
    (hcs : Pieces p cs text rest) : ∃ others, text = part ++ others ∧ Pieces p mid others rest := by
  obtain ⟨parts, hmany, rfl⟩ := hcs
  rw [many_of_some h hlt, Option.map_eq_some_iff] at hmany
  obtain ⟨⟨others, last⟩, hmid, heq⟩ := hmany
  obtain ⟨rfl, rfl⟩ := Prod.mk.inj heq
  exact ⟨others.flatten, by simp, others, hmid, rfl⟩

/-- A character before a run of its kind is read as a part of that run. -/
theorem run {p : Scanner (List Char)} {text : List Char} {test : Char → Bool}
    (hrun : ∀ c cs, test c = true → p (c :: cs) = some (c :: cs.takeWhile test, cs.dropWhile test))
    {c : Char} (hc : test c = true) (h : Pieces p cs text rest) :
    Pieces p (c :: cs) (c :: text) rest := by
  have hlt : ∀ c (cs : List Char), (cs.dropWhile test).length < (c :: cs).length :=
    fun _ cs => Nat.lt_succ_of_le (List.dropWhile_suffix test).length_le
  by_cases hhead : ∃ d ds, cs = d :: ds ∧ test d = true
  · obtain ⟨d, ds, rfl, hd⟩ := hhead
    obtain ⟨others, rfl, hothers⟩ := of_step (hrun d ds hd) (hlt d ds) h
    have hp := hrun c (d :: ds) hc
    rw [List.takeWhile_cons_of_pos hd, List.dropWhile_cons_of_pos hd] at hp
    exact step hp (Nat.lt_succ_of_lt (hlt d ds)) hothers
  · have hspan : span test cs = some ([], cs) := span_of_head fun d hd => by
      cases cs with
      | nil => cases hd
      | cons e es =>
        cases hd
        exact Bool.eq_false_iff.mpr fun htest => hhead ⟨_, es, rfl, htest⟩
    obtain ⟨htake, hdrop⟩ : cs.takeWhile test = [] ∧ cs.dropWhile test = cs := by
      simpa [span] using hspan
    have hp := hrun c cs hc
    rw [htake, hdrop] at hp
    exact step hp (Nat.lt_succ_self _) h

end Pieces

end CalendarQuery.Scanner
