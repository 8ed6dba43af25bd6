import CalendarQuery.Proofs.Text.Quoted
import CalendarQuery.Token.Lexer

/-!
# What one scan covers

The characters of a text that a token covers, said without the scanner, and the scanner's answer for
each way in which a text can start.

* `Token.Covers`: the characters of a token. `Token.isRun`: it goes on as long as it can.
* `Token.start`: how any text starts.
* `Lexer.next_blanks`, `Lexer.next_covers`, `Lexer.next_unclosed`: what the lexer does there.
-/

namespace CalendarQuery

namespace Token

/-- A word or a number, which is a run of word characters. -/
def isRun : Token → Bool
  | word _ | number _ => true
  | _ => false

/-- The characters that a token covers: a symbol itself, a quoted text its body with the quotes
around it, a word or a number a run of word characters. -/
inductive Covers : Token → List Char → Prop
  | symbol {c : Char} : isSymbolChar c = true → Covers (.symbol c) [c]
  | quoted {quote : Char} {body value : List Char} : isQuote quote = true →
    Text.Unquotes quote body value →
    Covers (.quoted (String.ofList value)) (quote :: (body ++ [quote]))
  | run {cs : List Char} : cs ≠ [] → (∀ c ∈ cs, isWordChar c = true) → Covers (ofWord cs) cs

/-- A written text is one token, whatever its characters are. -/
theorem covers_quoted (s : String) : (quoted s).Covers (Text.quoted s).toList := by
  have hquote : isQuote '"' = true := by decide
  have hcovers : Covers (.quoted (String.ofList s.toList)) _ :=
    .quoted hquote (Text.unquotes_escape s.toList)
  rwa [← Text.toList_quoted, String.ofList_toList] at hcovers

theorem isRun_ofWord (cs : List Char) : (ofWord cs).isRun = true := by
  unfold ofWord
  split <;> rfl

/-! ## Classes of characters -/

/-- No symbol separates tokens. -/
theorem isSeparator_of_isSymbolChar {c : Char} (h : isSymbolChar c = true) :
    isSeparator c = false := by
  have hall : (symbolChars.all fun d => !isSeparator d) = true := by decide
  simpa using List.all_eq_true.mp hall c (by simpa [isSymbolChar] using h)

/-- A quote is neither a separator nor a symbol nor a backslash. -/
theorem of_isQuote {c : Char} (h : isQuote c = true) :
    isSeparator c = false ∧ isSymbolChar c = false ∧ c ≠ '\\' := by
  simp only [isQuote, Bool.or_eq_true, beq_iff_eq] at h
  rcases h with rfl | rfl <;> decide

theorem isWordChar_eq_true {c : Char} : isWordChar c = true ↔
    isSeparator c = false ∧ isSymbolChar c = false ∧ isQuote c = false := by
  simp [isWordChar, and_assoc]

theorem isWordChar_of_isSeparator {c : Char} (h : isSeparator c = true) :
    isWordChar c = false := by
  simp [isWordChar, h]

theorem isWordChar_of_isSymbolChar {c : Char} (h : isSymbolChar c = true) :
    isWordChar c = false := by
  simp [isWordChar, h]

theorem isWordChar_of_isQuote {c : Char} (h : isQuote c = true) : isWordChar c = false := by
  simp [isWordChar, h]

variable {t : Token} {cs : List Char}

theorem Covers.ne_nil (h : t.Covers cs) : cs ≠ [] := by
  cases h with
  | symbol _ => simp
  | quoted _ _ => simp
  | run hne _ => exact hne

theorem Covers.ne_eof (h : t.Covers cs) : t ≠ .eof := by
  cases h with
  | symbol _ => simp
  | quoted _ _ => simp
  | run _ _ => exact ofWord_ne_eof cs

/-- The characters of a run are word characters. -/
theorem Covers.isWordChar (h : t.Covers cs) (hrun : t.isRun = true) :
    ∀ c ∈ cs, Token.isWordChar c = true := by
  cases h with
  | symbol _ => cases hrun
  | quoted _ _ => cases hrun
  | run _ hword => exact hword

/-- A token that is no run ends with a character of no word. -/
theorem Covers.getLast?_of_not_isRun (h : t.Covers cs) (hrun : t.isRun = false) :
    ∀ c ∈ cs.getLast?, Token.isWordChar c = false := by
  cases h with
  | symbol hc => simpa using isWordChar_of_isSymbolChar hc
  | @quoted quote body _ hquote _ =>
    rw [← List.cons_append, List.getLast?_concat]
    simpa using isWordChar_of_isQuote hquote
  | run _ _ => simp [isRun_ofWord] at hrun

end Token

namespace TokenStream

/-- The text starts with no character that could extend a word before it. -/
def Bounded (cs : List Char) : Prop := ∀ c ∈ cs.head?, Token.isWordChar c = false

theorem bounded_nil : Bounded [] := by simp [Bounded]

theorem bounded_cons {c : Char} (hc : Token.isWordChar c = false) (cs : List Char) :
    Bounded (c :: cs) := by simp [Bounded, hc]

theorem takeWhile_append_of_bounded {w cs : List Char} (hw : ∀ c ∈ w, Token.isWordChar c = true)
    (hcs : Bounded cs) : (w ++ cs).takeWhile Token.isWordChar = w ∧
      (w ++ cs).dropWhile Token.isWordChar = cs := by
  have hnil : cs.takeWhile Token.isWordChar = [] ∧ cs.dropWhile Token.isWordChar = cs := by
    cases cs with
    | nil => exact ⟨rfl, rfl⟩
    | cons c cs => have hc := hcs c rfl; simp [hc]
  rw [List.takeWhile_append_of_pos hw, List.dropWhile_append_of_pos hw, hnil.1, hnil.2]
  simp

/-- What is left behind a longest run is bounded. -/
theorem bounded_dropWhile (cs : List Char) : Bounded (cs.dropWhile Token.isWordChar) := by
  intro c hc
  have hstop := List.head?_dropWhile_not Token.isWordChar cs
  rw [hc] at hstop
  exact hstop

theorem Bounded.initial {cs ds : List Char} (hcs : Bounded cs) (h : ds <+: cs) :
    Bounded ds := by
  obtain ⟨es, rfl⟩ := h
  cases ds with
  | nil => exact bounded_nil
  | cons c ds => exact bounded_cons (hcs c rfl) ds

end TokenStream

namespace Lexer

open Token TokenStream

/-! ## Widths -/

@[simp] theorem width_nil : width [] = 0 := rfl

@[simp] theorem width_cons (c : Char) (cs : List Char) : width (c :: cs) = c.utf8Size + width cs :=
  rfl

@[simp] theorem width_append (cs ds : List Char) : width (cs ++ ds) = width cs + width ds := by
  induction cs with
  | nil => simp
  | cons c cs ih => simp [ih, Nat.add_assoc]

theorem width_pos {cs : List Char} (h : cs ≠ []) : 0 < width cs := by
  obtain ⟨c, cs, rfl⟩ := List.exists_cons_of_ne_nil h
  have := c.utf8Size_pos
  simp only [width_cons]
  omega

theorem utf8ByteSize_ofList (cs : List Char) : (String.ofList cs).utf8ByteSize = width cs := by
  induction cs with
  | nil => rfl
  | cons c cs ih => rw [String.ofList_cons, String.utf8ByteSize_append, ih]; simp

/-! ## The scanner at the start of a text -/

variable {t : Token} {quote : Char} {blanks cs rest : List Char}

/-- Separators are skipped. -/
theorem next_blanks (h : ∀ c ∈ blanks, isSeparator c = true) (cs : List Char) (o : Nat) :
    next ⟨blanks ++ cs, o, none⟩ = next ⟨cs, o + width blanks, none⟩ := by
  simp only [next, scan, List.takeWhile_append_of_pos h, List.dropWhile_append_of_pos h,
    width_append, Nat.add_assoc]

/-- A token is read from its characters if nothing extends it. -/
theorem next_covers (h : t.Covers cs) (hrun : t.isRun = true → Bounded rest) (o : Nat) :
    next ⟨cs ++ rest, o, none⟩ = .ok (⟨t, o⟩, ⟨rest, o + width cs, none⟩) := by
  cases h with
  | symbol hc => simp [next, scan, isSeparator_of_isSymbolChar hc, hc]
  | @quoted quote body value hquote hbody =>
    obtain ⟨hsep, hsym, hne⟩ := of_isQuote hquote
    have hsplit := hbody.splitQuoted_append hne rest
    simp [next, scan, hsep, hsym, hquote, hsplit, hbody.unescape_eq, Nat.add_assoc]
  | run hne hword =>
    obtain ⟨c, w, rfl⟩ := List.exists_cons_of_ne_nil hne
    obtain ⟨hsep, hsym, hquote⟩ := isWordChar_eq_true.mp (hword c List.mem_cons_self)
    obtain ⟨htake, hdrop⟩ := takeWhile_append_of_bounded
      (fun d hd => hword d (List.mem_cons_of_mem c hd)) (hrun (isRun_ofWord _))
    simp [next, scan, hsep, hsym, hquote, htake, hdrop]

/-- A quote that nothing closes is an error at its place. -/
theorem next_unclosed (hquote : isQuote quote = true) (h : Text.Unclosed quote rest) (o : Nat) :
    next ⟨quote :: rest, o, none⟩ = .error (.unterminatedText o) := by
  obtain ⟨hsep, hsym, hne⟩ := of_isQuote hquote
  simp [next, scan, hsep, hsym, hquote, (Text.splitQuoted_eq_none_iff hne).mpr h]

end Lexer

namespace Token

open TokenStream

variable {t : Token} {cs : List Char}

/-- A run starts with a word character. -/
theorem Covers.not_bounded (h : t.Covers cs) (hrun : t.isRun = true) (rest : List Char) :
    ¬Bounded (cs ++ rest) := by
  intro hbounded
  obtain ⟨c, w, rfl⟩ := List.exists_cons_of_ne_nil h.ne_nil
  have hword := h.isWordChar hrun c List.mem_cons_self
  rw [hbounded c rfl] at hword
  cases hword

/-- The runs are the tokens that end with a word character. -/
theorem Covers.isRun_eq_false_iff (h : t.Covers cs) :
    t.isRun = false ↔ ∀ c ∈ cs.getLast?, Token.isWordChar c = false := by
  refine ⟨h.getLast?_of_not_isRun, fun hlast => ?_⟩
  cases hrun : t.isRun with
  | false => rfl
  | true =>
    have hc := hlast _ (List.getLast?_eq_some_getLast h.ne_nil)
    rw [h.isWordChar hrun _ (List.getLast_mem h.ne_nil)] at hc
    cases hc

/-- How a text starts: behind separators it ends, or a token starts and nothing extends it, or a
quote stands there that nothing closes. -/
inductive Start : List Char → Prop
  | done {blanks : List Char} : (∀ c ∈ blanks, isSeparator c = true) → Start blanks
  | token {blanks cs rest : List Char} {t : Token} : (∀ c ∈ blanks, isSeparator c = true) →
    t.Covers cs → (t.isRun = true → Bounded rest) → Start (blanks ++ (cs ++ rest))
  | unclosed {blanks rest : List Char} {quote : Char} : (∀ c ∈ blanks, isSeparator c = true) →
    isQuote quote = true → Text.Unclosed quote rest → Start (blanks ++ quote :: rest)

/-- Every text starts in one of these ways. -/
theorem start (cs : List Char) : Start cs := by
  have hblanks : ∀ c ∈ cs.takeWhile isSeparator, isSeparator c = true :=
    List.all_eq_true.mp List.all_takeWhile
  have hstop := List.head?_dropWhile_not isSeparator cs
  have hcs := List.takeWhile_append_dropWhile (p := isSeparator) (l := cs)
  cases hrest : cs.dropWhile isSeparator with
  | nil =>
    rw [hrest, List.append_nil] at hcs
    rw [← hcs]
    exact .done hblanks
  | cons c ds =>
    rw [hrest] at hcs hstop
    rw [← hcs]
    have hsep : isSeparator c = false := hstop
    by_cases hsym : isSymbolChar c = true
    · have hcovers : Covers (.symbol c) [c] := .symbol hsym
      exact .token hblanks hcovers nofun
    · by_cases hquote : isQuote c = true
      · obtain ⟨-, -, hne⟩ := of_isQuote hquote
        cases hsplit : Text.splitQuoted c ds with
        | none => exact .unclosed hblanks hquote ((Text.splitQuoted_eq_none_iff hne).mp hsplit)
        | some r =>
          obtain ⟨hds, hbody⟩ := (Text.splitQuoted_eq_some_iff hne).mp hsplit
          have hsplit' : c :: ds = c :: (r.1 ++ [c]) ++ r.2 := by simp [hds]
          rw [hsplit']
          exact .token hblanks (.quoted hquote hbody) nofun
      · have hc : isWordChar c = true :=
          isWordChar_eq_true.mpr ⟨hsep, by simpa using hsym, by simpa using hquote⟩
        have hds : c :: ds = (c :: ds).takeWhile isWordChar ++ (c :: ds).dropWhile isWordChar :=
          List.takeWhile_append_dropWhile.symm
        rw [hds]
        refine .token hblanks (.run ?_ (List.all_eq_true.mp List.all_takeWhile))
          fun _ => bounded_dropWhile _
        simp [hc]

end Token

end CalendarQuery
