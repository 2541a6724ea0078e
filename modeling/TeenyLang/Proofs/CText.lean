import TeenyLang.Proofs.LexicalGrammar
import Mathlib.Data.List.Find

set_option autoImplicit false

/-!
# The tokens of a C text

How a C text falls into tokens: at each place the longest token is taken. The openings of the two
forms of comment are kept as tokens, since no expression has one.
-/
namespace TeenyLang.C

inductive CToken where
  | name (text : List Char)
  | number (text : List Char)
  | punctuator (text : List Char)
deriving DecidableEq, Repr

def isSpace (c : Char) : Bool :=
  c = ' ' || c = '\t' || c = '\n'

def isNameStart (c : Char) : Bool :=
  c.isAlpha || c = '_'

def isNameChar (c : Char) : Bool :=
  c.isAlphanum || c = '_'

/-- The longest continuation of a preprocessing number; a sign belongs to it only directly after
the letter of an exponent. -/
def numberRun (afterExponent : Bool) : List Char → List Char
  | [] => []
  | c :: rest =>
    if isNameChar c || c = '.' || (afterExponent && (c = '+' || c = '-')) then
      c :: numberRun (c ∈ ['e', 'E', 'p', 'P']) rest
    else []

/-- The punctuators of C and the openings of comments, the longer ones first. -/
def punctuators : List (List Char) :=
  ["%:%:", "...", "<<=", ">>=", "->", "++", "--", "<<", ">>", "<=", ">=", "==", "!=", "&&", "||",
    "*=", "/=", "%=", "+=", "-=", "&=", "^=", "|=", "##", "<:", ":>", "<%", "%>", "%:", "//", "/*",
    "[", "]", "(", ")", "\x7b", "\x7d", ".", "&", "*", "+", "-", "~", "!", "/", "%", "<", ">", "^",
    "|", "?", ":", ";", "=", ",", "#"].map String.toList

def readToken (text : List Char) : Option CToken :=
  match text with
  | [] => none
  | c :: rest =>
    if isNameStart c then some (.name (text.takeWhile isNameChar))
    else if c.isDigit || (c = '.' && rest.head?.any Char.isDigit) then
      some (.number (c :: numberRun false rest))
    else (punctuators.find? (·.isPrefixOf text)).map .punctuator

def CToken.chars : CToken → List Char
  | name text | number text | punctuator text => text

theorem nameChar_of_start {c : Char} (h : isNameStart c) : isNameChar c := by
  simp only [isNameStart, isNameChar, Char.isAlphanum, Bool.or_eq_true] at h ⊢
  tauto

theorem space_of_nameStart {c : Char} (h : isNameStart c) : isSpace c = false := by
  by_contra hspace
  simp only [isSpace, Bool.not_eq_false, Bool.or_eq_true, decide_eq_true_eq] at hspace
  rcases hspace with (rfl | rfl) | rfl <;> exact absurd h (by decide)

theorem readToken_ne_nil {text : List Char} {t : CToken} (h : readToken text = some t) :
    t.chars ≠ [] ∧ text ≠ [] := by
  cases text with
  | nil => cases h
  | cons c rest =>
    refine ⟨?_, by simp⟩
    simp only [readToken] at h
    split at h
    · next hstart =>
      cases h
      simp [CToken.chars, nameChar_of_start hstart]
    split at h
    · cases h
      simp [CToken.chars]
    · obtain ⟨p, hp, rfl⟩ := Option.map_eq_some_iff.1 h
      have hmem := List.mem_of_find?_eq_some hp
      have hall : ∀ p ∈ punctuators, p ≠ [] := by decide
      exact hall p hmem

def tokens (text : List Char) : Option (List CToken) :=
  match text with
  | [] => some []
  | c :: rest =>
    if isSpace c then tokens rest
    else
      match _read : readToken (c :: rest) with
      | none => none
      | some t => (tokens ((c :: rest).drop t.chars.length)).map (t :: ·)
termination_by text.length
decreasing_by
  · simp
  · have hpos := List.length_pos_iff.2 (readToken_ne_nil _read).1
    simp only [List.length_drop, List.length_cons]
    omega

@[simp] theorem tokens_nil : tokens [] = some [] := by
  rw [tokens]

@[simp] theorem tokens_space (rest : List Char) : tokens (' ' :: rest) = tokens rest := by
  rw [tokens]
  rfl

theorem tokens_of_readToken {text rest : List Char} {t : CToken}
    (h : readToken (text ++ rest) = some t) (hchars : t.chars = text)
    (hspace : ∀ c ∈ text.head?, isSpace c = false) :
    tokens (text ++ rest) = (tokens rest).map (t :: ·) := by
  obtain ⟨c, more, rfl⟩ := List.exists_cons_of_ne_nil (hchars ▸ (readToken_ne_nil h).1)
  rw [List.cons_append] at h ⊢
  rw [tokens, if_neg (by simp [hspace c rfl])]
  split
  · next hnone =>
    rw [h] at hnone
    cases hnone
  · next t' hsome =>
    obtain rfl : t = t' := Option.some.inj (h.symm.trans hsome)
    rw [hchars, ← List.cons_append, List.drop_left]

/-- What may follow a name or a number without becoming part of it. -/
def Ends (rest : List Char) : Prop :=
  ∀ c ∈ rest.head?, isNameChar c = false ∧ c ≠ '.'

theorem nameChar_of_digit {c : Char} (h : c.isDigit) :
    isNameChar c ∧ isNameStart c = false ∧ isSpace c = false ∧ c ∉ ['e', 'E', 'p', 'P'] := by
  have hletter : c.isAlpha = false := by
    by_contra hletter
    have := (Lexical.letter_ne (Bool.not_eq_false _ ▸ hletter)).2.2
    simp_all
  refine ⟨by simp [isNameChar, Char.isAlphanum, h], ?_, ?_, ?_⟩
  · have hunder : c ≠ '_' := by rintro rfl; exact absurd h (by decide)
    simp [isNameStart, hletter, hunder]
  · have hspace : c ≠ ' ' := by rintro rfl; exact absurd h (by decide)
    have htab : c ≠ '\t' := by rintro rfl; exact absurd h (by decide)
    have hnewline : c ≠ '\n' := by rintro rfl; exact absurd h (by decide)
    simp [isSpace, hspace, htab, hnewline]
  · intro hmem
    simp only [List.mem_cons, List.not_mem_nil, or_false] at hmem
    rcases hmem with rfl | rfl | rfl | rfl <;> exact absurd h (by decide)

theorem numberRun_run {run rest : List Char} (hrun : ∀ c ∈ run, c.isDigit ∨ c = '.')
    (hrest : Ends rest) : numberRun false (run ++ rest) = run := by
  induction run with
  | nil =>
    cases rest with
    | nil => rfl
    | cons c rest =>
      obtain ⟨hname, hpoint⟩ := hrest c rfl
      simp [numberRun, hname, hpoint]
  | cons c run ih =>
    obtain ⟨hc, hrun⟩ := List.forall_mem_cons.1 hrun
    have hexponent : decide (c ∈ ['e', 'E', 'p', 'P']) = false := by
      rcases hc with hdigit | rfl
      · exact decide_eq_false (nameChar_of_digit hdigit).2.2.2
      · rfl
    have htaken : isNameChar c || c = '.' || (false && (c = '+' || c = '-')) := by
      rcases hc with hdigit | rfl
      · simp [(nameChar_of_digit hdigit).1]
      · rfl
    rw [List.cons_append, numberRun, if_pos htaken, hexponent, ih hrun]

theorem tokens_number {c : Char} {run rest : List Char} (hc : c.isDigit)
    (hrun : ∀ d ∈ run, d.isDigit ∨ d = '.') (hrest : Ends rest) :
    tokens (c :: run ++ rest) = (tokens rest).map (.number (c :: run) :: ·) := by
  obtain ⟨_, hstart, hspace, _⟩ := nameChar_of_digit hc
  refine tokens_of_readToken ?_ rfl (by simpa using hspace)
  rw [List.cons_append, readToken]
  simp only [hstart, hc, Bool.false_eq_true, ↓reduceIte, Bool.true_or, numberRun_run hrun hrest]

theorem tokens_name {c : Char} {run rest : List Char} (hc : isNameStart c)
    (hrun : ∀ d ∈ run, isNameChar d) (hrest : Ends rest) :
    tokens (c :: run ++ rest) = (tokens rest).map (.name (c :: run) :: ·) := by
  have hspace := space_of_nameStart hc
  have hall : ∀ d ∈ c :: run, isNameChar d := List.forall_mem_cons.2 ⟨nameChar_of_start hc, hrun⟩
  refine tokens_of_readToken ?_ rfl (by simpa using hspace)
  rw [List.cons_append, readToken, if_pos hc, ← List.cons_append,
    Lexical.takeWhile_run hall fun d hd => (hrest d hd).1]

theorem isPrefixOf_before {p : List Char} {c : Char} (hc : c ∉ p) (text rest : List Char) :
    p.isPrefixOf (text ++ c :: rest) = p.isPrefixOf text := by
  induction p generalizing text with
  | nil => simp
  | cons d p ih =>
    obtain ⟨hd, hp⟩ := List.ne_and_not_mem_of_not_mem_cons hc
    cases text with
    | nil => simp [List.isPrefixOf, hd.symm]
    | cons e text => simp [List.isPrefixOf, ih hp]

/-- A punctuator ends before a letter, a digit or a space. -/
theorem find_punctuator {c : Char} (hc : c.isAlphanum ∨ c = ' ') (text rest : List Char) :
    punctuators.find? (·.isPrefixOf (text ++ c :: rest)) =
      punctuators.find? (·.isPrefixOf text) := by
  have hclean : punctuators.all (·.all fun d => !d.isAlphanum && d ≠ ' ') := by decide
  refine List.find?_congr fun p hp => isPrefixOf_before ?_ text rest
  intro hmem
  have hpunctuator := List.all_eq_true.1 (List.all_eq_true.1 hclean p hp) c hmem
  simp only [ne_eq, decide_not, Bool.and_eq_true, Bool.not_eq_true', decide_eq_false_iff_not]
    at hpunctuator
  rcases hc with hc | hc
  · simp [hc] at hpunctuator
  · exact hpunctuator.2 hc

theorem tokens_punctuator {text rest : List Char} {c : Char} (hc : c.isAlphanum ∨ c = ' ')
    (htext : punctuators.find? (·.isPrefixOf text) = some text)
    (hhead : text.head?.all fun d => !isNameStart d && !d.isDigit && d ≠ '.' && !isSpace d) :
    tokens (text ++ c :: rest) = (tokens (c :: rest)).map (.punctuator text :: ·) := by
  cases text with
  | nil => exact absurd htext (by decide)
  | cons d text =>
    simp only [List.head?_cons, Option.all_some, Bool.and_eq_true, Bool.not_eq_true', ne_eq,
      decide_not, decide_eq_false_iff_not] at hhead
    obtain ⟨⟨⟨hstart, hdigit⟩, hpoint⟩, hspace⟩ := hhead
    refine tokens_of_readToken ?_ rfl (by simpa using hspace)
    rw [← find_punctuator hc _ rest, List.cons_append] at htext
    simp [readToken, hstart, hdigit, hpoint, htext]

theorem tokens_operator (op : Operator) (rest : List Char) :
    tokens (op.spelling.toList ++ ' ' :: rest) =
      (tokens rest).map (.punctuator op.spelling.toList :: ·) := by
  rw [tokens_punctuator (.inr rfl) (by cases op <;> decide) (by cases op <;> decide),
    tokens_space]

end TeenyLang.C
