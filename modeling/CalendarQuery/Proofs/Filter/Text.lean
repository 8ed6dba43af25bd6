import CalendarQuery.Filter.Render
import CalendarQuery.Proofs.Property.Path
import CalendarQuery.Proofs.Time.Stamp

/-!
# The tokens of canonical text

Whatever a filter holds, its canonical text splits into the tokens that its parts stand for, and
nothing that is written runs into what follows it.

* `Filter.tokens`: the tokens of a filter.
* `TokenStream.ofChars_text`: the text of a filter, and any text behind it that extends no word.
* `TokenStream.ofString_text`: the text of a filter as a whole.
-/

namespace CalendarQuery

open TokenStream

/-! ## Texts of the parts -/

namespace Text

theorem escape_of_plain {cs : List Char} (h : ∀ c ∈ cs, c ≠ '"' ∧ c ≠ '\\') : escape cs = cs := by
  induction cs with
  | nil => rfl
  | cons c cs ih =>
    obtain ⟨hq, hb⟩ := h c List.mem_cons_self
    rw [escape, if_neg (by simp [hq, hb]), ih fun d hd => h d (List.mem_cons_of_mem c hd)]

end Text

namespace Stamp

theorem isDigit_or_sign_of_mem_yearText {year : Int} {c : Char}
    (h : c ∈ (Date.yearText year).toList) : Text.isDigit c = true ∨ c ∈ ['-', '+'] := by
  unfold Date.yearText at h
  split at h
  · exact .inl (Text.isDigit_of_mem_padded h)
  · rw [String.toList_append, List.mem_append] at h
    rcases h with hs | hd
    · refine .inr ?_
      split at hs <;> simp_all
    · exact .inl (Text.isDigit_of_mem_padded hd)

/-- A written time stamp holds no quote and no backslash. -/
theorem escape_compact (t : Stamp) : Text.escape t.compact.toList = t.compact.toList := by
  have hplain : ∀ c, Text.isDigit c = true ∨ c ∈ ['-', '+', 'T', 'Z'] → c ≠ '"' ∧ c ≠ '\\' := by
    rintro c (hd | hs)
    · constructor <;> rintro rfl <;> simp [Text.isDigit] at hd
    · constructor <;> rintro rfl <;> simp at hs
  refine Text.escape_of_plain fun c hc => hplain c ?_
  simp only [toList_compact, dayChars, clockChars, List.mem_append, List.mem_cons] at hc
  have hdigit : ∀ width n, c ∈ (Text.padded width n).toList →
      Text.isDigit c = true ∨ c ∈ ['-', '+', 'T', 'Z'] :=
    fun _ _ h => .inl (Text.isDigit_of_mem_padded h)
  rcases hc with (hy | hm | hd) | rfl | (hh | hm | hs) | hz
  · rcases isDigit_or_sign_of_mem_yearText hy with hd | hs
    · exact .inl hd
    · exact .inr (List.mem_append_left ['T', 'Z'] hs)
  · exact hdigit _ _ hm
  · exact hdigit _ _ hd
  · exact .inr (by decide)
  · exact hdigit _ _ hh
  · exact hdigit _ _ hm
  · exact hdigit _ _ hs
  · exact .inr (by simp_all)

end Stamp

/-! ## Tokens -/

namespace Comparator

/-- The tokens of a written operator. -/
def tokens : Comparator → List Token
  | .equal => [.symbol '=']
  | .notEqual => [.symbol '!', .symbol '=']
  | .like => [.symbol '~']
  | .notLike => [.symbol '!', .symbol '~']
  | .greaterThan => [.symbol '>']
  | .lessThan => [.symbol '<']
  | .greaterThanOrEqual => [.symbol '>', .symbol '=']
  | .lessThanOrEqual => [.symbol '<', .symbol '=']
  | c => [.word c.symbol]

end Comparator

/-- The token of a written operand. -/
def Operand.token : Operand → Token
  | .text s => .quoted s
  | .number n => .number n

namespace Filter

/-- The tokens of a written bound. -/
def boundTokens : Option Stamp → List Token
  | some t => [.quoted t.compact]
  | none => []

/-- The tokens of a child of a group. -/
def encloseTokens (child : Filter) (tokens : List Token) : List Token :=
  if child.isGroup then .symbol '(' :: (tokens ++ [.symbol ')']) else tokens

mutual

/-- The tokens of the canonical text. -/
def tokens : Filter → List Token
  | .and _ children => groupTokens .and children
  | .or children => groupTokens .or children
  | .compare path operator operand _ _ _ _ => path.tokens ++ (operator.tokens ++ [operand.token])
  | .presence path isPresent =>
    path.tokens ++ (if isPresent then Comparator.isDefined else .notDefined).tokens
  | .entity kind => [.word Property.entityType.spelling, .symbol '=', .quoted kind.name]
  | .timeRange path first last =>
    path.tokens ++ (.word "in" :: (boundTokens first ++ (.word "to" :: boundTokens last)))
  | .view name _ => [.word Property.view.spelling, .symbol '=', .quoted name]

/-- The tokens of the children of a group with the operator between them. -/
def groupTokens (op : LogicalOp) : List Filter → List Token
  | [] => []
  | [f] => encloseTokens f (tokens f)
  | f :: g :: fs => encloseTokens f (tokens f) ++ (.symbol op.symbol :: groupTokens op (g :: fs))

end

end Filter

/-! ## The text of a filter -/

namespace TokenStream

theorem ofChars_blank (cs : List Char) : ofChars (' ' :: cs) = ofChars cs :=
  ofChars_separator (by decide) cs

theorem bounded_blank (cs : List Char) : Bounded (' ' :: cs) := bounded_cons (by decide) cs

/-- A plain word of the language. -/
theorem ofChars_plain {w : String} {cs : List Char} (hne : w.toList ≠ [])
    (hw : w.toList.all Token.isWordChar = true)
    (hword : Token.ofWord w.toList = .word w) (h : Bounded cs) :
    ofChars (w.toList ++ cs) = (ofChars cs).cons (.word w) := by
  rw [ofChars_word hne (List.all_eq_true.mp hw) h, hword]

theorem ofChars_comparator (c : Comparator) {cs : List Char} (h : Bounded cs) :
    ofChars (c.symbol.toList ++ cs) = (ofChars cs).append c.tokens := by
  cases c
  case isDefined => exact ofChars_plain (by decide) (by decide) (by decide) h
  case notDefined => exact ofChars_plain (by decide) (by decide) (by decide) h
  case inTimeRange => exact ofChars_plain (by decide) (by decide) (by decide) h
  case startsWith => exact ofChars_plain (by decide) (by decide) (by decide) h
  case indexed => exact ofChars_plain (by decide) (by decide) (by decide) h
  case equal => exact ofChars_symbol (c := '=') (by decide) cs
  case like => exact ofChars_symbol (c := '~') (by decide) cs
  case greaterThan => exact ofChars_symbol (c := '>') (by decide) cs
  case lessThan => exact ofChars_symbol (c := '<') (by decide) cs
  all_goals
    simp only [Comparator.symbol, Comparator.tokens, append_cons, append_nil]
    exact (ofChars_symbol (by decide) _).trans (congrArg (cons _) (ofChars_symbol (by decide) cs))

theorem ofChars_operand (o : Operand) {cs : List Char} (h : Bounded cs) :
    ofChars (o.render.toList ++ cs) = (ofChars cs).cons o.token := by
  cases o with
  | text s => exact ofChars_quoted s cs
  | number n => exact ofChars_decimal n h

theorem bounded_bound (t : Option Stamp) {cs : List Char} (h : Bounded cs) :
    Bounded ((Filter.boundText t).toList ++ cs) := by
  cases t with
  | none => simpa [Filter.boundText] using h
  | some t =>
    simp only [Filter.boundText, String.toList_append]
    exact bounded_blank _

theorem ofChars_bound (t : Option Stamp) (cs : List Char) :
    ofChars ((Filter.boundText t).toList ++ cs) = (ofChars cs).append (Filter.boundTokens t) := by
  cases t with
  | none => simp [Filter.boundText, Filter.boundTokens]
  | some t =>
    have hchars : (Filter.boundText (some t)).toList ++ cs =
        ' ' :: ((Text.quoted t.compact).toList ++ cs) := by
      simp [Filter.boundText, Text.quoted, Stamp.escape_compact]
    rw [hchars, ofChars_blank, ofChars_quoted]
    rfl

theorem ofChars_enclose (f : Filter) {cs : List Char}
    (h : ∀ cs, Bounded cs → ofChars (f.text.toList ++ cs) = (ofChars cs).append f.tokens)
    (hcs : Bounded cs) : ofChars ((Filter.enclose f f.text).toList ++ cs) =
      (ofChars cs).append (Filter.encloseTokens f f.tokens) := by
  unfold Filter.enclose Filter.encloseTokens
  split
  · have hchars : ("(" ++ f.text ++ ")").toList ++ cs = '(' :: (f.text.toList ++ ')' :: cs) := by
      simp
    rw [hchars, ofChars_symbol (by decide), h _ (bounded_cons (by decide) cs),
      ofChars_symbol (by decide)]
    simp
  · exact h cs hcs

mutual

theorem ofChars_text (f : Filter) {cs : List Char} (h : Bounded cs) :
    ofChars (f.text.toList ++ cs) = (ofChars cs).append f.tokens := by
  cases f with
  | and name children => exact ofChars_groupText .and children h
  | or children => exact ofChars_groupText .or children h
  | compare path operator operand exact negate caseless isPrefix =>
    have hchars : (Filter.compare path operator operand exact negate caseless isPrefix).text.toList
        ++ cs = path.text.toList ++ ' ' :: (operator.symbol.toList ++
          ' ' :: (operand.render.toList ++ cs)) := by simp [Filter.text]
    rw [hchars, ofChars_path path (bounded_blank _), ofChars_blank,
      ofChars_comparator operator (bounded_blank _), ofChars_blank, ofChars_operand operand h]
    simp [Filter.tokens]
  | presence path isPresent =>
    have hchars : (Filter.presence path isPresent).text.toList ++ cs = path.text.toList ++ ' ' ::
        ((if isPresent then Comparator.isDefined else .notDefined).symbol.toList ++ cs) := by
      simp [Filter.text]
    rw [hchars, ofChars_path path (bounded_blank _), ofChars_blank, ofChars_comparator _ h]
    simp [Filter.tokens]
  | entity kind =>
    have hchars : (Filter.entity kind).text.toList ++ cs = Property.entityType.spelling.toList ++
        '=' :: ((Text.quoted kind.name).toList ++ cs) := by simp [Filter.text]
    rw [hchars, ofChars_spelling _ (bounded_cons (by decide) _), ofChars_symbol (by decide),
      ofChars_quoted]
    rfl
  | timeRange path first last =>
    have hchars : (Filter.timeRange path first last).text.toList ++ cs = path.text.toList ++
        ' ' :: ("in".toList ++ ((Filter.boundText first).toList ++
          ' ' :: ("to".toList ++ ((Filter.boundText last).toList ++ cs)))) := by
      simp [Filter.text]
    have hto : Bounded ((Filter.boundText last).toList ++ cs) := bounded_bound last h
    have hin : Bounded ((Filter.boundText first).toList ++
        ' ' :: ("to".toList ++ ((Filter.boundText last).toList ++ cs))) :=
      bounded_bound first (bounded_blank _)
    rw [hchars, ofChars_path path (bounded_blank _), ofChars_blank,
      ofChars_plain (by decide) (by decide) (by decide) hin, ofChars_bound, ofChars_blank,
      ofChars_plain (by decide) (by decide) (by decide) hto, ofChars_bound]
    simp [Filter.tokens]
  | view name filter =>
    have hchars : (Filter.view name filter).text.toList ++ cs = Property.view.spelling.toList ++
        '=' :: ((Text.quoted name).toList ++ cs) := by simp [Filter.text]
    rw [hchars, ofChars_spelling _ (bounded_cons (by decide) _), ofChars_symbol (by decide),
      ofChars_quoted]
    rfl

theorem ofChars_groupText (op : LogicalOp) (fs : List Filter) {cs : List Char} (h : Bounded cs) :
    ofChars ((Filter.groupText op fs).toList ++ cs) =
      (ofChars cs).append (Filter.groupTokens op fs) := by
  cases fs with
  | nil => simp [Filter.groupText, Filter.groupTokens]
  | cons f fs =>
    cases fs with
    | nil => exact ofChars_enclose f (fun _ => ofChars_text f) h
    | cons g fs =>
      have hchars : (Filter.groupText op (f :: g :: fs)).toList ++ cs =
          (Filter.enclose f f.text).toList ++ ' ' :: (op.symbol ::
            (' ' :: ((Filter.groupText op (g :: fs)).toList ++ cs))) := by
        simp [Filter.groupText]
      have hsymbol : Token.isSymbolChar op.symbol = true := by cases op <;> decide
      rw [hchars, ofChars_enclose f (fun _ => ofChars_text f) (bounded_blank _), ofChars_blank,
        ofChars_symbol hsymbol, ofChars_blank, ofChars_groupText op (g :: fs) h]
      simp [Filter.groupTokens]

end

/-- The canonical text of a filter as tokens. -/
theorem ofString_text (f : Filter) : ofString f.text = done.append f.tokens := by
  have h := ofChars_text f bounded_nil
  rwa [List.append_nil, ofChars_nil] at h

end TokenStream

end CalendarQuery
