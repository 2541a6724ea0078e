import TeenyLang.Text.Lines
import TeenyLang.Text.Quoted
import Mathlib.Algebra.Group.Nat.Defs
import Mathlib.Data.List.Basic

set_option autoImplicit false

/-!
# Quoted text is read back

Between its quotes a character is written in one of a few forms, and each form shows where it ends
(`readChar_escape`). None begins with the quote, so the closing quote is found as well, whatever
follows it (`quotedChars_inj`). All characters that are written are printable.
-/
namespace TeenyLang.Text

/-! ## Hexadecimal digits -/

def hexDigitValue (c : Char) : Nat :=
  if c.isDigit then c.toNat - '0'.toNat else c.toNat - 'a'.toNat + 10

def hexValue (digits : List Char) : Nat :=
  digits.foldl (fun n c => 16 * n + hexDigitValue c) 0

theorem hexDigitValue_digitChar : ∀ d < 16, hexDigitValue d.digitChar = d := by
  decide

theorem hexValue_concat (digits : List Char) (c : Char) :
    hexValue (digits ++ [c]) = 16 * hexValue digits + hexDigitValue c := by
  rw [hexValue, List.foldl_append]
  rfl

theorem hexValue_toDigits (n : Nat) : hexValue (Nat.toDigits 16 n) = n := by
  induction n using Nat.strongRecOn with
  | _ n ih =>
    rw [Nat.toDigits_eq_if (by decide)]
    split
    · next hsmall =>
      have hdigit := hexDigitValue_digitChar n hsmall
      simpa [hexValue] using hdigit
    · have hdigit : n % 16 < 16 := Nat.mod_lt n (by omega)
      rw [hexValue_concat, ih (n / 16) (by omega), hexDigitValue_digitChar _ hdigit]
      omega

theorem hexValue_hexDigits (width n : Nat) : hexValue (hexDigits width n) = n := by
  have hzeros (k : Nat) : (List.replicate k '0').foldl
      (fun n c => 16 * n + hexDigitValue c) 0 = 0 := by
    induction k with
    | zero => rfl
    | succ k ih => exact ih
  rw [hexDigits, hexValue, List.foldl_append, hzeros]
  exact hexValue_toDigits n

theorem length_hexDigits {width n : Nat} (hwidth : 0 < width) (h : n < 16 ^ width) :
    (hexDigits width n).length = width := by
  have hlength := (Nat.length_toDigits_le_iff (b := 16) (by decide) hwidth).2 h
  simp only [hexDigits, List.length_append, List.length_replicate]
  omega

theorem mem_toDigits {n : Nat} {c : Char} (h : c ∈ Nat.toDigits 16 n) :
    ∃ d < 16, c = d.digitChar := by
  induction n using Nat.strongRecOn with
  | _ n ih =>
    rw [Nat.toDigits_eq_if (by decide)] at h
    split at h
    · next hsmall => exact ⟨n, hsmall, List.mem_singleton.1 h⟩
    · rcases List.mem_append.1 h with h | h
      · exact ih (n / 16) (by omega) h
      · exact ⟨n % 16, Nat.mod_lt n (by omega), List.mem_singleton.1 h⟩

/-! ## One character -/

/-- How many digits follow the letter of an escape by code point. -/
def codeWidth? : Char → Option Nat
  | 'x' => some 2
  | 'u' => some 4
  | 'U' => some 8
  | _ => none

def namedEscape : Char → Char
  | 'n' => '\n'
  | 'r' => '\r'
  | 't' => '\t'
  | c => c

/-- The first character of what is written between quotes, and what is written after it. -/
def readChar : List Char → Option (Char × List Char)
  | [] => none
  | '\\' :: c :: rest =>
    match codeWidth? c with
    | some width => some (Char.ofNat (hexValue (rest.take width)), rest.drop width)
    | none => some (namedEscape c, rest)
  | c :: rest => some (c, rest)

def IsQuote (c : Char) : Prop :=
  c = '\x27' ∨ c = '"'

theorem isQuote_quoteOf (text : List Char) : IsQuote (quoteOf text) := by
  unfold quoteOf
  split
  · exact .inr rfl
  · exact .inl rfl

/-- The characters of ASCII that leave a mark, and the space. -/
def isVisible (c : Char) : Bool :=
  0x20 ≤ c.toNat && c.toNat < 0x7f

theorem isPrintable_of_isVisible {c : Char} (h : isVisible c) : isPrintable c := by
  have hranges : unprintableRanges.all fun range => range.2 < 0x20 || 0x7f ≤ range.1 := by
    decide +kernel
  simp only [isVisible, Bool.and_eq_true, decide_eq_true_eq] at h
  simp only [isPrintable, Bool.not_eq_true', List.any_eq_false, Bool.and_eq_true,
    decide_eq_true_eq, not_and]
  intro range hrange hfrom
  have houtside := List.all_eq_true.1 hranges range hrange
  simp only [Bool.or_eq_true, decide_eq_true_eq] at houtside
  omega

/-- The forms in which a character is written: as it is, by a name, or by its code point. -/
inductive Form (quote c : Char) : List Char → Prop
  | self (hquote : c ≠ quote) (hbackslash : c ≠ '\\') (hprintable : isPrintable c) :
      Form quote c [c]
  | named {letter : Char} (hcode : codeWidth? letter = none) (hnamed : namedEscape letter = c)
      (hprintable : isPrintable letter) : Form quote c ['\\', letter]
  | code {letter : Char} {width : Nat} (hcode : codeWidth? letter = some width)
      (hwidth : 0 < width) (hc : c.toNat < 16 ^ width) (hprintable : isPrintable letter) :
      Form quote c ('\\' :: letter :: hexDigits width c.toNat)

theorem toNat_lt (c : Char) : c.toNat < 0x110000 := by
  have hvalid := c.valid
  simp only [UInt32.isValidChar, Nat.isValidChar] at hvalid
  simp only [Char.toNat]
  omega

theorem form_escape {quote : Char} (hquote : IsQuote quote) (c : Char) :
    Form quote c (escape quote c) := by
  have hsize := toNat_lt c
  -- the letters of the escapes, the quotes and the backslash
  have hletter {d : Char} (h : isVisible d) : isPrintable d := isPrintable_of_isVisible h
  unfold escape
  split
  · next hself =>
    simp only [Bool.or_eq_true, decide_eq_true_eq] at hself
    rcases hself with rfl | rfl
    · rcases hquote with rfl | rfl <;> exact .named rfl rfl (hletter rfl)
    · exact .named rfl rfl (hletter rfl)
  next hself =>
  simp only [Bool.or_eq_true, decide_eq_true_eq, not_or] at hself
  split
  · next hline => exact .named rfl hline.symm (hletter rfl)
  split
  · next hreturn => exact .named rfl hreturn.symm (hletter rfl)
  split
  · next htab => exact .named rfl htab.symm (hletter rfl)
  split
  · next hprintable => exact .self hself.1 hself.2 hprintable
  split
  · next hone => exact .code rfl (by decide) hone (hletter rfl)
  split
  · next htwo => exact .code rfl (by decide) htwo (hletter rfl)
  · exact .code rfl (by decide) (by omega) (hletter rfl)

theorem readChar_of_form {quote c : Char} {written : List Char} (h : Form quote c written)
    (rest : List Char) : readChar (written ++ rest) = some (c, rest) := by
  cases h with
  | self _ hbackslash _ =>
    rw [List.singleton_append, readChar]
    exact fun _ _ hself _ => hbackslash hself
  | named hcode hnamed _ =>
    simp only [List.cons_append, List.nil_append, readChar, hcode, hnamed]
  | code hcode hwidth hc _ =>
    have hlength := length_hexDigits hwidth hc
    simp only [List.cons_append, readChar, hcode, List.take_left' hlength,
      List.drop_left' hlength, hexValue_hexDigits, Char.ofNat_toNat]

theorem readChar_escape {quote : Char} (hquote : IsQuote quote) (c : Char) (rest : List Char) :
    readChar (escape quote c ++ rest) = some (c, rest) :=
  readChar_of_form (form_escape hquote c) rest

theorem escape_head_ne {quote : Char} (hquote : IsQuote quote) (c : Char) :
    ∃ d more, escape quote c = d :: more ∧ d ≠ quote := by
  have hbackslash : '\\' ≠ quote := by rcases hquote with rfl | rfl <;> decide
  have hform := form_escape hquote c
  generalize escape quote c = written at hform
  cases hform with
  | self hself => exact ⟨_, _, rfl, hself⟩
  | named => exact ⟨_, _, rfl, hbackslash⟩
  | code => exact ⟨_, _, rfl, hbackslash⟩

/-! ## Whole texts -/

theorem isPrintable_hexDigits {width n : Nat} {c : Char} (h : c ∈ hexDigits width n) :
    isPrintable c := by
  have hvisible : ∀ d < 16, isVisible d.digitChar := by decide
  rcases List.mem_append.1 h with hzero | hdigit
  · obtain rfl := List.eq_of_mem_replicate hzero
    exact isPrintable_of_isVisible rfl
  · obtain ⟨d, hd, rfl⟩ := mem_toDigits hdigit
    exact isPrintable_of_isVisible (hvisible d hd)

theorem isPrintable_of_form {quote c d : Char} {written : List Char} (h : Form quote c written)
    (hd : d ∈ written) : isPrintable d := by
  have hbackslash : isPrintable '\\' := isPrintable_of_isVisible rfl
  cases h with
  | self _ _ hprintable =>
    obtain rfl := List.mem_singleton.1 hd
    exact hprintable
  | named _ _ hprintable =>
    rcases List.mem_cons.1 hd with rfl | hd
    · exact hbackslash
    · obtain rfl := List.mem_singleton.1 hd
      exact hprintable
  | code _ _ _ hprintable =>
    rcases List.mem_cons.1 hd with rfl | hd
    · exact hbackslash
    rcases List.mem_cons.1 hd with rfl | hd
    · exact hprintable
    · exact isPrintable_hexDigits hd

theorem isPrintable_quotedChars {text : List Char} {c : Char} (h : c ∈ quotedChars text) :
    isPrintable c := by
  have hquote : isPrintable (quoteOf text) := by
    rcases isQuote_quoteOf text with h | h <;> rw [h] <;> exact isPrintable_of_isVisible rfl
  simp only [quotedChars, List.cons_append, List.mem_cons, List.mem_append, List.mem_flatMap,
    List.not_mem_nil, or_false] at h
  rcases h with rfl | ⟨d, -, hd⟩ | rfl
  · exact hquote
  · exact isPrintable_of_form (form_escape (isQuote_quoteOf text) d) hd
  · exact hquote

/-- What stands between two quotes is found again with what follows them. -/
theorem flatMap_escape_inj {quote : Char} (hquote : IsQuote quote)
    {text text' rest rest' : List Char}
    (h : text.flatMap (escape quote) ++ quote :: rest =
      text'.flatMap (escape quote) ++ quote :: rest') : text = text' ∧ rest = rest' := by
  induction text generalizing text' with
  | nil =>
    cases text' with
    | nil => exact ⟨rfl, List.tail_eq_of_cons_eq h⟩
    | cons c text' =>
      obtain ⟨d, more, hwritten, hne⟩ := escape_head_ne hquote c
      rw [List.flatMap_cons, hwritten] at h
      exact absurd (List.head_eq_of_cons_eq h).symm hne
  | cons c text ih =>
    cases text' with
    | nil =>
      obtain ⟨d, more, hwritten, hne⟩ := escape_head_ne hquote c
      rw [List.flatMap_cons, hwritten] at h
      exact absurd (List.head_eq_of_cons_eq h) hne
    | cons c' text' =>
      rw [List.flatMap_cons, List.flatMap_cons, List.append_assoc, List.append_assoc] at h
      have hread := congrArg readChar h
      rw [readChar_escape hquote, readChar_escape hquote, Option.some.injEq, Prod.mk.injEq] at hread
      obtain ⟨rfl, hmore⟩ := hread
      obtain ⟨rfl, hrest⟩ := ih hmore
      exact ⟨rfl, hrest⟩

theorem quotedChars_inj {text text' rest rest' : List Char}
    (h : quotedChars text ++ rest = quotedChars text' ++ rest') : text = text' ∧ rest = rest' := by
  simp only [quotedChars, List.cons_append, List.append_assoc, List.nil_append,
    List.cons.injEq] at h
  -- the first characters say which quotes are in use
  obtain ⟨hquote, h⟩ := h
  rw [hquote] at h
  exact flatMap_escape_inj (isQuote_quoteOf text') h

theorem isLineBreak_of_isPrintable {c : Char} (h : isPrintable c) : isLineBreak c = false := by
  have hbreaks : ['\n', '\r', '\x0b', '\x0c', '\x1c', '\x1d', '\x1e', '\x85', '\u2028',
      '\u2029'].all fun c => !isPrintable c := by
    decide +kernel
  cases hbreak : isLineBreak c with
  | false => rfl
  | true =>
    have hnot := List.all_eq_true.1 hbreaks c (List.contains_iff_mem.1 hbreak)
    rw [h] at hnot
    cases hnot

end TeenyLang.Text
