import CalendarQuery.Proofs.Sort.Grammar

/-!
# Written sort keys read back

* `TokenStream.ofString_keys`: a list of written keys gives the tokens of the keys.
* `Compiler.sort_text`: they spell the keys.
-/

namespace CalendarQuery

namespace SortKey

/-- The tokens of a written key. -/
def tokens (k : SortKey) : List Token := k.path.tokens ++ [.symbol ':', .word k.direction]

/-- The written form of a list of keys. -/
def textAll (keys : List SortKey) : String := ",".intercalate (keys.map text)

theorem textAll_cons_cons (k k' : SortKey) (keys : List SortKey) :
    textAll (k :: k' :: keys) = k.text ++ "," ++ textAll (k' :: keys) := by
  simp [textAll, String.intercalate_cons_cons]

/-- A written key is spelled by its tokens, whatever direction is given. -/
theorem spells_tokens {k : SortKey} (h : k.path.WellFormed) (ascending : Bool) :
    k.Spells ascending k.tokens :=
  .directed (PropertyPath.spells_tokens h) (by simp [Text.sameName])

theorem spellAll_tokens {k : SortKey} {keys : List SortKey} (hk : k.path.WellFormed)
    (h : ∀ k ∈ keys, k.path.WellFormed) (ascending : Bool) :
    SpellAll ascending (k :: keys) (k.tokens ++ keys.flatMap fun k => .symbol ',' :: k.tokens) := by
  have hall : List.Forall₂ (Spells ascending) keys (keys.map tokens) := by
    rw [List.forall₂_map_right_iff, List.forall₂_same]
    exact fun k hmem => spells_tokens (h k hmem) ascending
  have hspell := SpellAll.cons (spells_tokens hk ascending) hall
  rwa [List.flatMap_map] at hspell

end SortKey

namespace TokenStream

open SortKey

theorem ofChars_key (k : SortKey) {cs : List Char} (h : Bounded cs) :
    ofChars (k.text.toList ++ cs) = (ofChars cs).append k.tokens := by
  have hdirection : ofChars (k.direction.toList ++ cs) = (ofChars cs).cons (.word k.direction) := by
    unfold direction
    split
    · exact ofChars_plain (by decide) (by decide) (by decide) h
    · exact ofChars_plain (by decide) (by decide) (by decide) h
  have hchars : k.text.toList ++ cs = k.path.text.toList ++ ':' :: (k.direction.toList ++ cs) := by
    simp [text]
  rw [hchars, ofChars_path k.path (bounded_cons (by decide) _), ofChars_symbol (by decide),
    hdirection, SortKey.tokens, append_append]
  rfl

/-- A list of written keys gives the tokens of the keys. -/
theorem ofString_keys (k : SortKey) (keys : List SortKey) : ofString (textAll (k :: keys)) =
    done.append (k.tokens ++ keys.flatMap fun k => .symbol ',' :: k.tokens) := by
  induction keys generalizing k with
  | nil =>
    have htext : (textAll [k]).toList = k.text.toList ++ [] := by simp [textAll]
    rw [ofString, htext, ofChars_key k bounded_nil, ofChars_nil]
    simp
  | cons k' keys ih =>
    have htext : (textAll (k :: k' :: keys)).toList =
        k.text.toList ++ ',' :: (textAll (k' :: keys)).toList := by
      simp [textAll_cons_cons]
    rw [ofString, htext, ofChars_key k (bounded_cons (by decide) _), ofChars_symbol (by decide),
      ← ofString, ih]
    simp

end TokenStream

namespace Compiler

open SortKey

/-- A list of written keys is not blank, because of their colons. -/
theorem not_blank_textAll (k : SortKey) (keys : List SortKey) :
    (textAll (k :: keys)).toList.all Text.isBlank = false := by
  have hcolon : ':' ∈ (textAll (k :: keys)).toList := by
    cases keys with
    | nil => simp [textAll, text]
    | cons k' keys => simp [textAll_cons_cons, text]
  rw [List.all_eq_false]
  exact ⟨':', hcolon, by decide⟩

/-- Whatever direction is given to keys that name none, written keys on well-formed paths read back
as they are, if their text is not too long. -/
theorem sort_text (c : Compiler) (keys : List SortKey) (hkeys : ∀ k ∈ keys, k.path.WellFormed)
    (hlength : c.limits.admits (",".intercalate (keys.map SortKey.text)) = true) :
    c.sort (",".intercalate (keys.map SortKey.text)) = .sortKeys keys := by
  rw [sort_eq_sortKeys, parseSort_eq_ok hlength, ← textAll]
  cases keys with
  | nil => rfl
  | cons k keys =>
    obtain ⟨hk, hkeys⟩ := List.forall_mem_cons.mp hkeys
    rw [not_blank_textAll, if_neg (by simp), TokenStream.ofString_keys]
    refine ⟨by simp, rfl, ?_⟩
    simpa [TokenStream.append, TokenStream.done] using spellAll_tokens hk hkeys _

theorem sort_text_indexes :
    let c : Compiler := ⟨Store.empty.hierarchy, .standard⟩
    let keys : List SortKey := [⟨⟨⟨.xProp, none, some "a,b:\"c\\"⟩, []⟩, true⟩,
      ⟨⟨⟨.attendee, some (-9223372036854775808), none⟩, [.plain .cn]⟩, false⟩]
    (∀ k ∈ keys, k.path.WellFormed) ∧
      c.limits.admits (",".intercalate (keys.map SortKey.text)) = true ∧
      c.sort (",".intercalate (keys.map SortKey.text)) = .sortKeys keys := by
  intro c keys
  have hkeys : ∀ k ∈ keys, k.path.WellFormed := by
    simp only [keys, List.forall_mem_cons]
    exact ⟨⟨rfl, by decide, .inl rfl, by simp⟩, ⟨rfl, by decide, .inr rfl, by decide⟩, by simp⟩
  have hlength : c.limits.admits (",".intercalate (keys.map SortKey.text)) = true := by decide
  exact ⟨hkeys, hlength, sort_text c keys hkeys hlength⟩

end Compiler

end CalendarQuery
