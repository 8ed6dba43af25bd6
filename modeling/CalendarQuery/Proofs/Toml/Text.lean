import CalendarQuery.Proofs.Text.Scanner
import CalendarQuery.Toml.Lexical
import CalendarQuery.Toml.Writer

/-!
# Written texts read back

A text is written in the plainest of four forms that shows it. Whichever that is, it reads back.

* `Gives`, `ReadsEscapes.gives_escapeChar`: a piece of a body, and the character that it stands for.
* `pieces_escape_false`: the body of a text on one line.
* `Shows`, `Shows.pieces`: the body of a text between triple quotes, in which up to two quotes may
  stand in a row.
* `quotedText_writeText`: a text reads back.
-/

namespace CalendarQuery.Toml

open Scanner

/-! ## Characters -/

theorem isPlain_of_not_isControl {c : Char} (h : isControl c = false) (hc : c ≠ '\n') :
    isPlain c = true := by
  simp only [isControl, isPlain, Bool.or_eq_false_iff, Bool.and_eq_false_iff, bne_eq_false_iff_eq,
    decide_eq_false_iff_not, beq_eq_false_iff_ne, Bool.or_eq_true, Bool.and_eq_true,
    decide_eq_true_eq, beq_iff_eq, bne_iff_ne] at h ⊢
  rcases h.1 with (hle | htab) | hnl
  · exact .inr ⟨Char.not_lt.mp hle, h.2⟩
  · exact .inl htab
  · exact absurd hnl hc

/-- A control character has its code point in two hexadecimal digits. -/
theorem toNat_of_isControl {c : Char} (h : isControl c = true) : c.toNat < 128 := by
  simp only [isControl, Bool.or_eq_true, Bool.and_eq_true, decide_eq_true_eq, beq_iff_eq] at h
  rcases h with ⟨⟨hlt, -⟩, -⟩ | rfl
  · have : c.toNat < 32 := hlt
    omega
  · decide

theorem hexDigits_of_lt : ∀ n < 128,
    isHexDigit (upperHexDigit (n / 16)) = true ∧ isHexDigit (upperHexDigit (n % 16)) = true ∧
    natOfDigits 16 ['0', '0', upperHexDigit (n / 16), upperHexDigit (n % 16)] = n := by
  decide

theorem escaped_codePoint {c : Char} (h : c.toNat < 128) (rest : List Char) :
    escaped ('\\' :: 'u' :: '0' :: '0' :: upperHexDigit (c.toNat / 16) ::
      upperHexDigit (c.toNat % 16) :: rest) = some (c, rest) := by
  obtain ⟨h₁, h₂, hn⟩ := hexDigits_of_lt c.toNat h
  have h0 : isHexDigit '0' = true := by decide
  have hvalid : c.toNat.isValidChar := c.valid
  simp [escaped, codePoint, times, h0, h₁, h₂, hn, hvalid, Char.ofNat_toNat]

/-- A character that stands for itself in a text with escapes. -/
def isStanding (c : Char) : Bool := isPlain c && c != '"' && c != '\\'

theorem standing_cons {c : Char} {cs : List Char} (h : isStanding c = true) :
    standing (c :: cs) = some (c :: cs.takeWhile isStanding, cs.dropWhile isStanding) :=
  span1_cons cs h

theorem standing_of_not {c : Char} (cs : List Char) (h : isStanding c = false) :
    standing (c :: cs) = none :=
  span1_of_head fun _ hd => by cases hd; exact h

theorem newline_of_ne {c : Char} (cs : List Char) (hnl : c ≠ '\n') (hcr : c ≠ '\r') :
    newline (c :: cs) = none := by
  simp [newline, hnl, hcr]

/-! ## Bodies of texts -/

/-- Such a piece of a body is read as the given character, whatever follows. -/
def Gives (p : Scanner (List Char)) (piece : List Char) (c : Char) : Prop :=
  ∀ ⦃rest text last : List Char⦄, Pieces p rest text last →
    Pieces p (piece ++ rest) (c :: text) last

theorem Gives.of_read {p : Scanner (List Char)} {piece : List Char} {c : Char} (hne : piece ≠ [])
    (h : ∀ rest, p (piece ++ rest) = some ([c], rest)) : Gives p piece c := by
  intro rest text last hrest
  have hlt : rest.length < (piece ++ rest).length := by
    simpa using List.length_pos_iff.mpr hne
  exact Pieces.step (h rest) hlt hrest

/-- How the parts of a body with escapes are read. -/
structure ReadsEscapes (triple : Bool) (p : Scanner (List Char)) : Prop where
  standing : ∀ c cs, isStanding c = true →
    p (c :: cs) = some (c :: cs.takeWhile isStanding, cs.dropWhile isStanding)
  escaped : ∀ x cs c rest, isBlank x = false → x ≠ '\n' → x ≠ '\r' →
    escaped ('\\' :: x :: cs) = some (c, rest) → p ('\\' :: x :: cs) = some ([c], rest)
  newline : triple = true → ∀ rest, p ('\n' :: rest) = some (['\n'], rest)

namespace ReadsEscapes

variable {triple : Bool} {p : Scanner (List Char)}

theorem gives_escape (hp : ReadsEscapes triple p) {x c : Char} {cs : List Char}
    (hblank : isBlank x = false) (hnl : x ≠ '\n') (hcr : x ≠ '\r')
    (h : ∀ rest, Toml.escaped ('\\' :: x :: (cs ++ rest)) = some (c, rest)) :
    Gives p ('\\' :: x :: cs) c :=
  Gives.of_read (by simp) fun rest => hp.escaped x _ c rest hblank hnl hcr (h rest)

theorem gives_quote (hp : ReadsEscapes triple p) : Gives p ['\\', '"'] '"' :=
  hp.gives_escape (by decide) (by decide) (by decide) fun _ => rfl

theorem gives_escapeChar (hp : ReadsEscapes triple p) {c : Char} (hc : c ≠ '"') :
    Gives p (escapeChar triple c) c := by
  unfold escapeChar
  split
  · exact hp.gives_escape (by decide) (by decide) (by decide) fun _ => rfl
  · exact hp.gives_escape (by decide) (by decide) (by decide) fun _ => rfl
  · split
    · rename_i htriple
      exact Gives.of_read (by simp) (hp.newline htriple)
    · exact hp.gives_escape (by decide) (by decide) (by decide) fun _ => rfl
  · exact hp.gives_escape (by decide) (by decide) (by decide) fun _ => rfl
  · exact hp.gives_escape (by decide) (by decide) (by decide) fun _ => rfl
  · exact hp.gives_escape (by decide) (by decide) (by decide) fun _ => rfl
  · split
    · rename_i hcontrol
      exact hp.gives_escape (by decide) (by decide) (by decide)
        (escaped_codePoint (toNat_of_isControl hcontrol))
    · rename_i hnl _ _ hbackslash hcontrol
      have hplain := isPlain_of_not_isControl (Bool.eq_false_iff.mpr hcontrol) hnl
      have hstanding : isStanding c = true := by
        simpa [isStanding, hplain, hc] using hbackslash
      intro _ _ _
      exact Pieces.run hp.standing hstanding

end ReadsEscapes

/-- A piece starts with no double quote, and with a line end only for one. -/
theorem head_escapeChar (triple : Bool) {c : Char} (hc : c ≠ '"') :
    ∃ d ds, escapeChar triple c = d :: ds ∧ d ≠ '"' ∧ d ≠ '\r' ∧ (d = '\n' → c = '\n') := by
  have hescape : ∀ cs : List Char, ∃ d ds, '\\' :: cs = d :: ds ∧ d ≠ '"' ∧ d ≠ '\r' ∧
      (d = '\n' → c = '\n') := fun cs =>
    ⟨'\\', cs, rfl, by decide, by decide, fun h => absurd h (by decide)⟩
  unfold escapeChar
  split
  · exact hescape _
  · exact hescape _
  · split
    · exact ⟨'\n', [], rfl, by decide, by decide, fun _ => rfl⟩
    · exact hescape _
  · exact hescape _
  · exact hescape _
  · exact hescape _
  · rename_i hcr _
    split
    · exact hescape _
    · exact ⟨c, [], rfl, hc, hcr, id⟩

/-! ## Texts on one line -/

/-- A part of a text between double quotes. -/
def basicPart : Scanner (List Char) := standing <|> List.singleton <$> escaped

theorem readsEscapes_basicPart : ReadsEscapes false basicPart where
  standing c cs h := by
    rw [basicPart, orElse_apply, standing_cons h, Option.some_or]
  escaped x cs c rest _ _ _ h := by
    simp [basicPart, standing_of_not _ (show isStanding '\\' = false by decide), h, List.singleton]
  newline := by simp

theorem pieces_escape_false (cs rest : List Char) (run : Nat) :
    Pieces basicPart (escape false run cs ++ '"' :: rest) cs ('"' :: rest) := by
  induction cs generalizing run with
  | nil =>
    refine Pieces.stop ?_
    simp [escape, basicPart, standing_of_not _ (show isStanding '"' = false by decide), escaped]
  | cons c cs ih =>
    by_cases hc : c = '"'
    · subst hc
      simpa [escape] using readsEscapes_basicPart.gives_quote (ih 0)
    · simpa [escape, hc] using readsEscapes_basicPart.gives_escapeChar hc (ih 0)

theorem basicText_write (cs rest : List Char) :
    basicText (TextForm.basic.write cs ++ rest) = some (cs, rest) := by
  obtain ⟨parts, hmany, hparts⟩ := pieces_escape_false cs rest 0
  rw [basicPart] at hmany
  simp [TextForm.write, TextForm.delimiter, TextForm.isTriple, TextForm.hasEscapes, basicText,
    hmany, hparts]

theorem literalText_write {cs : List Char} (h : ∀ c ∈ cs, isPlain c = true ∧ c ≠ '\'')
    (rest : List Char) : literalText (TextForm.literal.write cs ++ rest) = some (cs, rest) := by
  have hspan : span (fun c => isPlain c && c != '\'') (cs ++ '\'' :: rest) =
      some (cs, '\'' :: rest) :=
    span_append cs (fun c hc => by simpa using h c hc) (by simp)
  simp [TextForm.write, TextForm.delimiter, TextForm.isTriple, TextForm.hasEscapes, literalText,
    hspan]

/-! ## Texts of several lines -/

/-- A part of the body of a text between triple quotes. -/
def triplePart (quote : Char) (part : Scanner (List Char)) : Scanner (List Char) :=
  part <|> innerQuotes quote (do let _ ← satisfy (· != quote))

/-- A body that shows the given characters. Of the quotes in a row, `run` stand before it. -/
inductive Shows (quote : Char) (part : Scanner (List Char)) : Nat → List Char → List Char → Prop
  | nil (run : Nat) : Shows quote part run [] []
  | quote {run : Nat} {body cs : List Char} : run < 2 → Shows quote part (run + 1) body cs →
    Shows quote part run (quote :: body) (quote :: cs)
  | char {run : Nat} {d c : Char} {piece body cs : List Char} : d ≠ quote →
    Gives (triplePart quote part) (d :: piece) c → Shows quote part 0 body cs →
    Shows quote part run (d :: piece ++ body) (c :: cs)

section Triple

variable {quote : Char} {part : Scanner (List Char)}

/-- Quotes before something else are read as such. -/
theorem pieces_quotes (hpart : ∀ cs, part (quote :: cs) = none) {run : Nat} (hrun : run ≤ 2)
    {c : Char} {cs text last : List Char} (hc : c ≠ quote)
    (h : Pieces (triplePart quote part) (c :: cs) text last) :
    Pieces (triplePart quote part) (List.replicate run quote ++ c :: cs)
      (List.replicate run quote ++ text) last := by
  match run, hrun with
  | 0, _ => exact h
  | 1, _ =>
    refine Pieces.step ?_ (by simp) h
    simp [triplePart, hpart, innerQuotes, quotesBefore, times, hc]
  | 2, _ =>
    refine Pieces.step ?_ (by simp) h
    simp [triplePart, hpart, innerQuotes, quotesBefore, times, hc]

/-- A body is read up to its last quotes. -/
theorem Shows.pieces (hpart : ∀ cs, part (quote :: cs) = none) {run : Nat} {body cs : List Char}
    (h : Shows quote part run body cs) (hrun : run ≤ 2) (rest : List Char) :
    ∃ text k, k ≤ 2 ∧ List.replicate run quote ++ cs = text ++ List.replicate k quote ∧
      Pieces (triplePart quote part)
        (List.replicate run quote ++ body ++ quote :: quote :: quote :: rest) text
        (List.replicate k quote ++ quote :: quote :: quote :: rest) := by
  induction h with
  | nil run =>
    refine ⟨[], run, hrun, by simp, ?_⟩
    simp only [List.append_nil]
    refine Pieces.stop ?_
    match run, hrun with
    | 0, _ => simp [triplePart, hpart, innerQuotes, quotesBefore, times]
    | 1, _ => simp [triplePart, hpart, innerQuotes, quotesBefore, times]
    | 2, _ => simp [triplePart, hpart, innerQuotes, quotesBefore, times]
  | quote hlt h ih =>
    obtain ⟨text, k, hk, htext, hpieces⟩ := ih hlt
    rw [List.replicate_succ'] at htext hpieces
    exact ⟨text, k, hk, by simpa using htext, by simpa using hpieces⟩
  | @char run d c piece body cs hd hgives h ih =>
    obtain ⟨text, k, hk, htext, hpieces⟩ := ih (Nat.zero_le 2)
    simp only [List.replicate_zero, List.nil_append] at htext hpieces
    refine ⟨List.replicate run quote ++ c :: text, k, hk, by simp [htext], ?_⟩
    simpa using pieces_quotes hpart hrun hd (hgives hpieces)

/-- A text between triple quotes reads back. A line end after the opening quotes is for the
reader. -/
theorem tripleText_of_shows (hpart : ∀ cs, part (quote :: cs) = none) {body cs : List Char}
    (h : Shows quote part 0 body cs) {rest : List Char} (hrest : rest.head? ≠ some quote)
    {first : List Char}
    (hfirst : first = ['\n'] ∨
      first = [] ∧ newline (body ++ quote :: quote :: quote :: rest) = none) :
    tripleText quote part (quote :: quote :: quote ::
      (first ++ body ++ quote :: quote :: quote :: rest)) = some (cs, rest) := by
  obtain ⟨text, k, hk, htext, parts, hmany, rfl⟩ := h.pieces hpart (Nat.zero_le 2) rest
  simp only [List.replicate_zero, List.nil_append] at htext hmany
  subst htext
  have hnone : char quote rest = none := by
    cases rest with
    | nil => rfl
    | cons c cs =>
      have hc : c ≠ quote := fun h => hrest (h ▸ rfl)
      simp [hc]
  have hopen : (maybe newline) (first ++ body ++ quote :: quote :: quote :: rest) =
      some (first.head?.map fun _ => (), body ++ quote :: quote :: quote :: rest) := by
    rcases hfirst with rfl | ⟨rfl, hnewline⟩
    · simp [newline]
    · simp [hnewline]
  have hlast : (innerQuotes quote (word [quote, quote, quote]) <|> pure [])
      (List.replicate k quote ++ quote :: quote :: quote :: rest) =
      some (List.replicate k quote, quote :: quote :: quote :: rest) := by
    match k, hk with
    | 0, _ => simp [innerQuotes, quotesBefore, times, hnone]
    | 1, _ => simp [innerQuotes, quotesBefore, times, hnone]
    | 2, _ => simp [innerQuotes, quotesBefore, times]
  rw [triplePart] at hmany
  simp only [tripleText, bind_apply, word_cons, word_nil, char_cons, if_true, Option.bind_some,
    hopen, hmany, hlast, pure_apply]

theorem tripleText_of_word {cs : List Char} (h : word [quote, quote, quote] cs = none) :
    tripleText quote part cs = none := by
  rw [tripleText, bind_apply, h, Option.bind_none]

end Triple

/-- A part of a text between triple double quotes, without the quotes. -/
def tripleBasicPart : Scanner (List Char) :=
  standing <|> continuation <|> (List.singleton <$> escaped) <|> textNewline

theorem tripleBasicPart_quote (cs : List Char) : tripleBasicPart ('"' :: cs) = none := by
  simp [tripleBasicPart, standing_of_not _ (show isStanding '"' = false by decide), continuation,
    escaped, textNewline, newline]

theorem continuation_of_ne {x : Char} (cs : List Char) (hblank : isBlank x = false)
    (hnl : x ≠ '\n') (hcr : x ≠ '\r') : continuation ('\\' :: x :: cs) = none := by
  have hspan : span isBlank (x :: cs) = some ([], x :: cs) :=
    span_of_head fun _ hd => by cases hd; exact hblank
  simp [continuation, blanks, hspan, newline_of_ne cs hnl hcr]

theorem readsEscapes_tripleBasicPart : ReadsEscapes true (triplePart '"' tripleBasicPart) where
  standing c cs h := by
    simp [triplePart, tripleBasicPart, standing_cons h]
  escaped x cs c rest hblank hnl hcr h := by
    simp [triplePart, tripleBasicPart, standing_of_not _ (show isStanding '\\' = false by decide),
      continuation_of_ne cs hblank hnl hcr, h, List.singleton]
  newline _ rest := by
    simp [triplePart, tripleBasicPart, standing_of_not _ (show isStanding '\n' = false by decide),
      continuation, escaped, textNewline, newline]

theorem shows_escape (cs : List Char) (run : Nat) :
    Shows '"' tripleBasicPart run (escape true run cs) cs := by
  induction cs generalizing run with
  | nil => exact .nil run
  | cons c cs ih =>
    by_cases hc : c = '"'
    · subst hc
      by_cases hrun : run < 2
      · simpa [escape, hrun] using Shows.quote hrun (ih (run + 1))
      · simpa [escape, hrun] using
          Shows.char (by decide) readsEscapes_tripleBasicPart.gives_quote (ih 0)
    · obtain ⟨d, ds, hpiece, hd, -, -⟩ := head_escapeChar true hc
      have hgives := readsEscapes_tripleBasicPart.gives_escapeChar hc
      rw [hpiece] at hgives
      simpa [escape, hc, hpiece] using Shows.char hd hgives (ih 0)

/-- A part of a text between triple single quotes, without the quotes. -/
def tripleLiteralPart : Scanner (List Char) :=
  (span1 fun c => isPlain c && c != '\'') <|> textNewline

theorem tripleLiteralPart_quote (cs : List Char) : tripleLiteralPart ('\'' :: cs) = none := by
  have hspan : span1 (fun c => isPlain c && c != '\'') ('\'' :: cs) = none :=
    span1_of_head (by simp)
  simp [tripleLiteralPart, hspan, textNewline, newline]

theorem gives_tripleLiteralPart {c : Char} (h : isControl c = false) (hc : c ≠ '\'') :
    Gives (triplePart '\'' tripleLiteralPart) [c] c := by
  by_cases hnl : c = '\n'
  · subst hnl
    refine Gives.of_read (by simp) fun rest => ?_
    have hspan : span1 (fun c => isPlain c && c != '\'') ('\n' :: rest) = none :=
      span1_of_head fun _ hd => by cases hd; decide
    simp [triplePart, tripleLiteralPart, hspan, textNewline, newline]
  · have hplain := isPlain_of_not_isControl h hnl
    intro _ _ _
    have hrun : ∀ d cs, (isPlain d && d != '\'') = true →
        triplePart '\'' tripleLiteralPart (d :: cs) =
          some (d :: cs.takeWhile fun c => isPlain c && c != '\'',
            cs.dropWhile fun c => isPlain c && c != '\'') := fun d cs hd => by
      rw [triplePart, tripleLiteralPart, orElse_apply, orElse_apply, span1_cons cs hd]
      rfl
    exact Pieces.run hrun (by simp [hplain, hc])

theorem le_longestRun (q : Char) (run : Nat) (cs : List Char) : run ≤ longestRun q run cs := by
  induction cs generalizing run with
  | nil => exact Nat.le_refl run
  | cons c cs ih =>
    unfold longestRun
    split
    · exact Nat.le_of_succ_le (ih (run + 1))
    · exact Nat.le_max_left _ _

theorem shows_plain {cs : List Char} (h : ∀ c ∈ cs, isControl c = false) {run : Nat}
    (hrun : longestRun '\'' run cs ≤ 2) : Shows '\'' tripleLiteralPart run cs cs := by
  induction cs generalizing run with
  | nil => exact .nil run
  | cons c cs ih =>
    have hcs := fun d hd => h d (List.mem_cons_of_mem c hd)
    unfold longestRun at hrun
    split at hrun
    · rename_i hc
      subst hc
      exact Shows.quote (Nat.le_trans (le_longestRun _ _ cs) hrun) (ih hcs hrun)
    · rename_i hc
      exact Shows.char hc (gives_tripleLiteralPart (h c List.mem_cons_self) hc)
        (ih hcs (Nat.le_trans (Nat.le_max_right _ _) hrun))

/-! ## Every text -/

/-- What is known of a text from the form in which it is written. -/
theorem TextForm.of_cases (cs : List Char) :
    TextForm.of cs = .basic ∨ TextForm.of cs = .tripleBasic ∨
    (TextForm.of cs = .literal ∧ ∀ c ∈ cs, isPlain c = true ∧ c ≠ '\'') ∨
    (TextForm.of cs = .tripleLiteral ∧ (∀ c ∈ cs, isControl c = false) ∧
      longestRun '\'' 0 cs ≤ 2) := by
  unfold TextForm.of
  simp only
  split
  · exact .inl rfl
  · split
    · rename_i h
      simp only [Bool.and_eq_true, Bool.not_eq_true', List.any_eq_false, List.contains_eq_mem,
        decide_eq_false_iff_not, Bool.not_eq_true] at h
      obtain ⟨⟨hplain, hnl⟩, hquote⟩ := h
      refine .inr (.inr (.inl ⟨rfl, fun c hc => ⟨?_, fun heq => hquote (heq ▸ hc)⟩⟩))
      exact isPlain_of_not_isControl (hplain c hc) fun heq => hnl (heq ▸ hc)
    · split
      · exact .inr (.inl rfl)
      · split
        · rename_i h
          simp only [Bool.and_eq_true, Bool.not_eq_true', List.any_eq_false, decide_eq_true_eq,
            Bool.not_eq_true] at h
          exact .inr (.inr (.inr ⟨rfl, h.1, h.2⟩))
        · split
          · exact .inr (.inl rfl)
          · exact .inl rfl

/-- The line end before a body is there for the reader, or there is none. -/
theorem newline_before {cs body rest : List Char} (h : ∀ c ∈ (body ++ rest).head?,
    c ≠ '\r' ∧ (c = '\n' → '\n' ∈ cs)) :
    (if cs.contains '\n' then ['\n'] else []) = ['\n'] ∨
    (if cs.contains '\n' then ['\n'] else []) = [] ∧ newline (body ++ rest) = none := by
  by_cases hnl : '\n' ∈ cs
  · simp [hnl]
  · refine .inr ⟨by simp [hnl], ?_⟩
    cases hhead : body ++ rest with
    | nil => rfl
    | cons c tail =>
      obtain ⟨hcr, hc⟩ := h c (by rw [hhead]; rfl)
      exact newline_of_ne tail (fun heq => hnl (hc heq)) hcr

theorem head_escape (triple : Bool) (run : Nat) (cs rest : List Char) :
    ∀ c ∈ (escape triple run cs ++ '"' :: rest).head?, c ≠ '\r' ∧ (c = '\n' → '\n' ∈ cs) := by
  cases cs with
  | nil =>
    rintro c ⟨⟩
    exact ⟨by decide, fun h => absurd h (by decide)⟩
  | cons c cs =>
    by_cases hc : c = '"'
    · subst hc
      rw [escape, if_pos rfl]
      split <;> simp
    · obtain ⟨d, ds, hpiece, -, hcr, hnl⟩ := head_escapeChar triple hc
      simp only [escape, if_neg hc, hpiece, List.cons_append, List.head?_cons, Option.mem_some_iff]
      rintro _ rfl
      exact ⟨hcr, fun h => hnl h ▸ List.mem_cons_self⟩

theorem tripleBasicText_write (cs : List Char) {rest : List Char} (hrest : rest.head? ≠ some '"') :
    tripleBasicText (TextForm.tripleBasic.write cs ++ rest) = some (cs, rest) := by
  have hread : tripleBasicText _ = _ :=
    tripleText_of_shows tripleBasicPart_quote (shows_escape cs 0) hrest
      (newline_before (head_escape true 0 cs ('"' :: '"' :: rest)))
  simpa [TextForm.write, TextForm.delimiter, TextForm.isTriple, TextForm.hasEscapes] using hread

theorem tripleLiteralText_write {cs : List Char} (h : ∀ c ∈ cs, isControl c = false)
    (hrun : longestRun '\'' 0 cs ≤ 2) {rest : List Char} (hrest : rest.head? ≠ some '\'') :
    tripleLiteralText (TextForm.tripleLiteral.write cs ++ rest) = some (cs, rest) := by
  have hhead : ∀ c ∈ (cs ++ '\'' :: '\'' :: '\'' :: rest).head?,
      c ≠ '\r' ∧ (c = '\n' → '\n' ∈ cs) := by
    cases cs with
    | nil => simp
    | cons c cs =>
      rintro _ ⟨⟩
      refine ⟨?_, fun hnl => hnl ▸ List.mem_cons_self⟩
      rintro rfl
      exact absurd (h _ List.mem_cons_self) (by decide)
  have hread : tripleLiteralText _ = _ :=
    tripleText_of_shows tripleLiteralPart_quote (shows_plain h hrun) hrest (newline_before hhead)
  simpa [TextForm.write, TextForm.delimiter, TextForm.isTriple, TextForm.hasEscapes] using hread

/-- A text between single quotes of its kind does not start with three. -/
theorem word_quotes {quote : Char} {body rest : List Char} (hbody : body.head? ≠ some quote)
    (hrest : rest.head? ≠ some quote) :
    word [quote, quote, quote] (quote :: (body ++ quote :: rest)) = none := by
  cases body with
  | nil =>
    cases rest with
    | nil => simp
    | cons c cs =>
      have hc : c ≠ quote := fun h => hrest (h ▸ rfl)
      simp [hc]
  | cons c cs =>
    have hc : c ≠ quote := fun h => hbody (h ▸ rfl)
    simp [hc]

theorem head?_escape_false (cs : List Char) : (escape false 0 cs).head? ≠ some '"' := by
  cases cs with
  | nil => simp [escape]
  | cons c cs =>
    by_cases hc : c = '"'
    · simp [escape, hc]
    · obtain ⟨d, ds, hpiece, hd, -, -⟩ := head_escapeChar false hc
      simpa [escape, hc, hpiece] using hd

/-- A text reads back, whatever its characters, before anything but a quote. -/
theorem quotedText_writeText (s : String) (rest : List Char) (hdouble : rest.head? ≠ some '"')
    (hsingle : rest.head? ≠ some '\'') :
    quotedText ((writeText s).toList ++ rest) = some (s.toList, rest) := by
  rw [writeText, String.toList_ofList]
  rcases TextForm.of_cases s.toList with h | h | ⟨h, hplain⟩ | ⟨h, hplain, hrun⟩
  · have htriple : tripleBasicText (TextForm.basic.write s.toList ++ rest) = none := by
      refine tripleText_of_word ?_
      simpa [TextForm.write, TextForm.delimiter, TextForm.isTriple, TextForm.hasEscapes] using
        word_quotes (head?_escape_false s.toList) hdouble
    simp [h, quotedText, htriple, basicText_write]
  · simp [h, quotedText, tripleBasicText_write _ hdouble]
  · have hhead : s.toList.head? ≠ some '\'' := fun hc =>
      (hplain '\'' (List.mem_of_mem_head? hc)).2 rfl
    have htriple : tripleLiteralText (TextForm.literal.write s.toList ++ rest) = none := by
      refine tripleText_of_word ?_
      simpa [TextForm.write, TextForm.delimiter, TextForm.isTriple, TextForm.hasEscapes] using
        word_quotes hhead hsingle
    have hbasic : tripleBasicText (TextForm.literal.write s.toList ++ rest) = none :=
      tripleText_of_word (by simp [TextForm.write, TextForm.delimiter])
    have hone : basicText (TextForm.literal.write s.toList ++ rest) = none := by
      simp [TextForm.write, TextForm.delimiter, basicText]
    simp [h, quotedText, htriple, hbasic, hone, literalText_write hplain]
  · have hbasic : tripleBasicText (TextForm.tripleLiteral.write s.toList ++ rest) = none :=
      tripleText_of_word (by simp [TextForm.write, TextForm.delimiter])
    have hone : basicText (TextForm.tripleLiteral.write s.toList ++ rest) = none := by
      simp [TextForm.write, TextForm.delimiter, basicText]
    simp [h, quotedText, hbasic, hone, tripleLiteralText_write hplain hrun hsingle]

end CalendarQuery.Toml
