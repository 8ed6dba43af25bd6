/-!
# Quoted text

A quoted text stands between two equal quotes; a backslash in it stands for the character after
it. Texts are written with double quotes (`Text.quoted`); both kinds are read.

* `Text.escape`: the body of a written text, a backslash before each `"` and `\`.
* `Text.unescape`: the value of a body.
* `Text.splitQuoted`: the body up to the closing quote, and what follows the quote.
-/

namespace CalendarQuery.Text

/-- The body of a double-quoted text: a backslash before each double quote and backslash. -/
def escape : List Char → List Char
  | [] => []
  | c :: cs => if c = '"' ∨ c = '\\' then '\\' :: c :: escape cs else c :: escape cs

/-- The value of a body: each backslash gives way to the character after it. -/
def unescape : List Char → List Char
  | '\\' :: c :: cs => c :: unescape cs
  | c :: cs => c :: unescape cs
  | [] => []

/-- The body before the first `quote` that no backslash escapes, and the text after that quote;
`none` if there is no such quote. -/
def splitQuoted (quote : Char) : List Char → Option (List Char × List Char)
  | [] => none
  | '\\' :: c :: cs => (splitQuoted quote cs).map fun (body, rest) => ('\\' :: c :: body, rest)
  | c :: cs =>
    if c = quote then some ([], cs)
    else (splitQuoted quote cs).map fun (body, rest) => (c :: body, rest)

/-- A text between double quotes. -/
def quoted (s : String) : String := "\"" ++ String.ofList (escape s.toList) ++ "\""

/-- A split text is the body, the quote and the rest. -/
theorem splitQuoted_eq {quote : Char} {cs body rest : List Char}
    (h : splitQuoted quote cs = some (body, rest)) : cs = body ++ quote :: rest := by
  fun_induction splitQuoted quote cs generalizing body rest with
  | case1 => simp at h
  | case2 c cs ih =>
    obtain ⟨⟨b, r⟩, hs, he⟩ := Option.map_eq_some_iff.mp h
    simp only [Prod.mk.injEq] at he
    obtain ⟨rfl, rfl⟩ := he
    rw [ih hs]; rfl
  | case3 => simp at h; obtain ⟨rfl, rfl⟩ := h; rfl
  | case4 c cs _ hc ih =>
    obtain ⟨⟨b, r⟩, hs, he⟩ := Option.map_eq_some_iff.mp h
    simp only [Prod.mk.injEq] at he
    obtain ⟨rfl, rfl⟩ := he
    rw [ih hs]; rfl

theorem length_of_splitQuoted {quote : Char} {cs body rest : List Char}
    (h : splitQuoted quote cs = some (body, rest)) : rest.length < cs.length := by
  rw [splitQuoted_eq h]
  simp; omega

end CalendarQuery.Text
