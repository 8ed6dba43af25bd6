import CalendarQuery.Proofs.Toml.Number
import CalendarQuery.Proofs.Toml.Text
import CalendarQuery.Toml.Reader

/-!
# Written settings read back

Settings are written one to a line, and each line is read as one statement.

* `Writes`: what is written for a value, with one lemma for each kind of value.
* `line_pairLine`, `line_headerLine`, `line_newline`: the lines.
* `Lines`, `Value.ofDocument?_of_lines`: a document of such lines, and the table that it holds.
-/

namespace CalendarQuery.Toml

open Scanner

/-! ## Values -/

theorem quotedText_of_ne {c : Char} (cs : List Char) (hdouble : c ≠ '"') (hsingle : c ≠ '\'') :
    quotedText (c :: cs) = none := by
  simp [quotedText, tripleBasicText, tripleLiteralText, tripleText, basicText, literalText, hdouble,
    hsingle]

/-- What is written for a value is read as the value, up to the end of its line. -/
structure Writes (text : String) (v : Value) : Prop where
  head : ∀ c ∈ text.toList.head?, isBlank c = false
  read : ∀ rest, simpleValue (text.toList ++ '\n' :: rest) = some (v, '\n' :: rest)

theorem writes_writeText (s : String) : Writes (writeText s) (.text s) where
  head := by
    rw [writeText, String.toList_ofList]
    cases TextForm.of s.toList <;> rintro c ⟨⟩ <;> decide
  read rest := by
    have hread := quotedText_writeText s ('\n' :: rest) (by simp) (by simp)
    simp [simpleValue, hread]

theorem writes_padded {n : Nat} (h : Fits n) :
    Writes (Text.padded 1 n) (.integer (Int64.ofInt n)) := by
  obtain ⟨c, cs, hcs⟩ := List.exists_cons_of_ne_nil (Text.padded_ne_nil 1 n)
  have hc : c.isDigit = true := isDigit_of_mem_padded (hcs ▸ List.mem_cons_self)
  constructor
  · rw [hcs]
    rintro _ ⟨⟩
    refine Bool.eq_false_iff.mpr fun hblank => ?_
    simp only [isBlank, Bool.or_eq_true, beq_iff_eq] at hblank
    rcases hblank with rfl | rfl <;> simp [Char.isDigit] at hc
  · intro rest
    have hquoted : quotedText ((Text.padded 1 n).toList ++ '\n' :: rest) = none := by
      rw [hcs]
      refine quotedText_of_ne _ ?_ ?_ <;> rintro rfl <;> simp [Char.isDigit] at hc
    simp [simpleValue, hquoted, time_of_digits (digits_padded n rest), float_of_digits,
      integer_padded h]

theorem writes_writeBoolean (b : Bool) : Writes (writeBoolean b) (.boolean b) where
  head := by cases b <;> rintro c ⟨⟩ <;> decide
  read rest := by cases b <;> rfl

/-! ## Keys -/

/-- A name that needs no quotes. -/
def Bare (name : String) : Prop := name.toList ≠ [] ∧ ∀ c ∈ name.toList, isBare c = true

instance (name : String) : Decidable (Bare name) :=
  decidable_of_iff (name.toList ≠ [] ∧ name.toList.all isBare = true) (by simp [Bare])

theorem ne_of_isBare {c d : Char} (hc : isBare c = true) (hd : isBare d = false) : c ≠ d := by
  rintro rfl
  simp [hc] at hd

theorem blanks_of_head {cs : List Char} (h : ∀ c ∈ cs.head?, isBlank c = false) :
    blanks cs = some ((), cs) := by
  simp [blanks, span_of_head h]

theorem isBlank_of_isBare {c : Char} (h : isBare c = true) : isBlank c = false := by
  simp [isBlank, ne_of_isBare h (d := ' ') (by decide), ne_of_isBare h (d := '\t') (by decide)]

/-- A name is a key by itself, with blanks after it. -/
theorem key_bare {name : String} (h : Bare name) (gap : List Char) {rest : List Char}
    (hgap : ∀ c ∈ gap, isBlank c = true)
    (hrest : ∀ c ∈ rest.head?, isBare c = false ∧ isBlank c = false ∧ c ≠ '.') :
    key (name.toList ++ (gap ++ rest)) = some (⟨[], name⟩, rest) := by
  obtain ⟨c, cs, hcs⟩ := List.exists_cons_of_ne_nil h.1
  have hc : isBare c = true := h.2 c (hcs ▸ List.mem_cons_self)
  have hfirst : blanks (name.toList ++ (gap ++ rest)) = some ((), name.toList ++ (gap ++ rest)) :=
    blanks_of_head fun d hd => by
      rw [hcs] at hd
      cases hd
      exact isBlank_of_isBare hc
  have hafter : ∀ d ∈ (gap ++ rest).head?, isBare d = false := by
    intro d hd
    cases gap with
    | nil => exact (hrest d hd).1
    | cons e gap =>
      cases hd
      refine Bool.eq_false_iff.mpr fun hbare => ?_
      simp [isBlank_of_isBare hbare] at hgap
  have hspan := span1_append h.1 h.2 hafter
  have hname : Toml.name (name.toList ++ (gap ++ rest)) = some (name, gap ++ rest) := by
    have hbasic : basicText (name.toList ++ (gap ++ rest)) = none := by
      simp [hcs, basicText, ne_of_isBare hc (d := '"') (by decide)]
    have hliteral : literalText (name.toList ++ (gap ++ rest)) = none := by
      simp [hcs, literalText, ne_of_isBare hc (d := '\'') (by decide)]
    simp [Toml.name, hbasic, hliteral, hspan]
  have hgapRead : blanks (gap ++ rest) = some ((), rest) := by
    simp [blanks, span_append gap hgap fun d hd => (hrest d hd).2.1]
  have hdot : char '.' rest = none := by
    cases rest with
    | nil => rfl
    | cons d rest => simp [(hrest d rfl).2.2]
  have hmany : many (char '.' *> (blanks *> Toml.name <* blanks)) rest = some ([], rest) :=
    many_of_none (by simp [hdot])
  simp [key, separated, hfirst, hname, hgapRead, hmany, maxNames, Key.ofList?]

/-! ## Lines -/

theorem lineEnd_newline (rest : List Char) : lineEnd ('\n' :: rest) = some ((), rest) := by
  have hblanks : blanks ('\n' :: rest) = some ((), '\n' :: rest) :=
    blanks_of_head fun _ hc => by cases hc; decide
  simp [lineEnd, hblanks, comment, newline]

theorem value_of_simpleValue {cs rest : List Char} {v : Value} (depth : Nat)
    (h : simpleValue cs = some (v, rest)) : value (depth + 1) cs = some (v, rest) := by
  simp [value, h]

theorem line_pairLine {name text : String} {v : Value} (hname : Bare name) (htext : Writes text v)
    (rest : List Char) :
    line ((pairLine name text).toList ++ rest) = some (some (.pair ⟨[], name⟩ v), rest) := by
  have hkey : key (name.toList ++ ' ' :: '=' :: ' ' :: (text.toList ++ '\n' :: rest)) =
      some (⟨[], name⟩, '=' :: ' ' :: (text.toList ++ '\n' :: rest)) :=
    key_bare hname [' '] (by simp [isBlank]) fun _ hc => by cases hc; decide
  have hblanks : blanks (' ' :: (text.toList ++ '\n' :: rest)) =
      some ((), text.toList ++ '\n' :: rest) := by
    have hhead : ∀ c ∈ (text.toList ++ '\n' :: rest).head?, isBlank c = false := by
      cases htoList : text.toList with
      | nil => exact fun _ hc => by cases hc; decide
      | cons c cs => exact fun _ hc => by cases hc; exact htext.head c (by rw [htoList]; rfl)
    have hspan : span isBlank (' ' :: (text.toList ++ '\n' :: rest)) = _ :=
      span_append [' '] (by simp [isBlank]) hhead
    simp [blanks, hspan]
  have hvalue := value_of_simpleValue 78 (htext.read rest)
  have hopen : ∀ cs, char '[' (name.toList ++ cs) = none := fun cs => by
    obtain ⟨c, others, hcs⟩ := List.exists_cons_of_ne_nil hname.1
    simp [hcs, ne_of_isBare (hname.2 c (hcs ▸ List.mem_cons_self)) (d := '[') (by decide)]
  simp [pairLine, line, statement, hopen, pairOf, hkey, hblanks, maxDepth, hvalue, lineEnd_newline]

theorem line_headerLine {name : String} (hname : Bare name) (rest : List Char) :
    line ((headerLine name).toList ++ rest) = some (some (.table ⟨[], name⟩), rest) := by
  have hkey : key (name.toList ++ ']' :: '\n' :: rest) = some (⟨[], name⟩, ']' :: '\n' :: rest) :=
    key_bare hname [] (by simp) fun _ hc => by cases hc; decide
  have hopen : char '[' (name.toList ++ ']' :: '\n' :: rest) = none := by
    obtain ⟨c, others, hcs⟩ := List.exists_cons_of_ne_nil hname.1
    simp [hcs, ne_of_isBare (hname.2 c (hcs ▸ List.mem_cons_self)) (d := '[') (by decide)]
  simp [headerLine, line, statement, hopen, hkey, lineEnd_newline]

theorem line_newline (rest : List Char) : line ('\n' :: rest) = some (none, rest) := by
  have hblanks : blanks ('\n' :: rest) = some ((), '\n' :: rest) :=
    blanks_of_head fun _ hc => by cases hc; decide
  have hspan : span1 isBare ('\n' :: rest) = none :=
    span1_of_head fun _ hc => by cases hc; decide
  have hkey : key ('\n' :: rest) = none := by
    simp [key, separated, hblanks, name, basicText, literalText, hspan]
  simp [line, statement, pairOf, hkey, comment, newline]

/-! ## Documents -/

/-- A document of such lines, which starts with neither a blank nor a byte order mark. -/
structure Lines (cs : List Char) (lines : List (Option Statement)) : Prop where
  head : ∀ c ∈ cs.head?, isBlank c = false ∧ c ≠ '\ufeff'
  read : many (line <* blanks) cs = some (lines, [])

namespace Lines

theorem nil : Lines [] [] where
  head := by simp
  read := many_of_none (by rfl)

variable {cs : List Char} {lines : List (Option Statement)}

/-- One more line before the others. -/
theorem cons {l : Option Statement} (h : Lines cs lines) (written : List Char)
    (hne : written ≠ []) (hhead : ∀ c ∈ written.head?, isBlank c = false ∧ c ≠ '\ufeff')
    (hline : line (written ++ cs) = some (l, cs)) : Lines (written ++ cs) (l :: lines) where
  head := by
    obtain ⟨c, others, rfl⟩ := List.exists_cons_of_ne_nil hne
    exact hhead
  read := by
    have hblanks : blanks cs = some ((), cs) := blanks_of_head fun c hc => (h.head c hc).1
    have hlt : cs.length < (written ++ cs).length := by
      simpa using List.length_pos_iff.mpr hne
    have hround : (line <* blanks) (written ++ cs) = some (l, cs) := by simp [hline, hblanks]
    rw [many_of_some hround hlt, h.read]
    rfl

theorem pair (name : String) {text : String} {v : Value} (h : Lines cs lines) (hname : Bare name)
    (htext : Writes text v) :
    Lines ((pairLine name text).toList ++ cs) (some (.pair ⟨[], name⟩ v) :: lines) := by
  obtain ⟨c, others, hcs⟩ := List.exists_cons_of_ne_nil hname.1
  have hc := hname.2 c (hcs ▸ List.mem_cons_self)
  refine h.cons _ (by simp [pairLine]) (fun d hd => ?_) (line_pairLine hname htext cs)
  simp only [pairLine, String.toList_append, hcs, List.cons_append, List.head?_cons,
    Option.mem_some_iff] at hd
  subst hd
  exact ⟨isBlank_of_isBare hc, ne_of_isBare hc (by decide)⟩

theorem header (name : String) (h : Lines cs lines) (hname : Bare name) :
    Lines ((headerLine name).toList ++ cs) (some (.table ⟨[], name⟩) :: lines) := by
  refine h.cons _ (by simp [headerLine]) (fun d hd => ?_) (line_headerLine hname cs)
  simp only [headerLine, String.toList_append] at hd
  cases hd
  decide

theorem empty (h : Lines cs lines) : Lines ('\n' :: cs) (none :: lines) :=
  h.cons ['\n'] (by simp) (fun _ hc => by cases hc; decide) (line_newline cs)

/-- The statements of the lines are those of the document. -/
theorem whole_document (h : Lines cs lines) : whole document cs = some (lines.filterMap id) := by
  have hmark : char '\ufeff' cs = none := by
    cases cs with
    | nil => rfl
    | cons c cs => simp [(h.head c rfl).2]
  have hblanks : blanks cs = some ((), cs) := blanks_of_head fun c hc => (h.head c hc).1
  simp [whole, document, hmark, hblanks, h.read, atEnd]

end Lines

/-- The table of a document from its statements. -/
theorem Value.ofDocument?_of_lines {text : String} {lines : List (Option Statement)} {draft : Draft}
    (h : Lines text.toList lines) (hdraft : Draft.empty.addAll (lines.filterMap id) = some draft) :
    Value.ofDocument? text = some (.table (Entries.toValues draft.root)) := by
  simp only [Value.ofDocument?, h.whole_document, Option.bind_eq_bind, Option.bind_some, hdraft,
    Option.pure_def]

/-- A property of the default and of all values that can be read. -/
theorem Record.of_withDefault {α : Type} {P : α → Prop} {r : Record} {position : Nat}
    {name : String} {read : Value → Option α} {default a : α} (hread : ∀ v a, read v = some a → P a)
    (hdefault : P default) (h : r.withDefault position name read default = some a) : P a := by
  unfold Record.withDefault at h
  split at h
  · exact hread _ a h
  · cases h
    exact hdefault

end CalendarQuery.Toml
