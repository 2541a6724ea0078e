import TeenyLang.Proofs.ExpressionValue
import TeenyLang.Token.Scanner
import Mathlib.Data.List.DropRight

set_option autoImplicit false

/-!
# Numbers in C

A number loses the zeros at its head. It keeps its value, it is a number of the source language
still, and its integer part is a single zero or begins with another digit, so C takes it for a
decimal constant and not for an octal one. Done twice this changes nothing more, whatever the text.
-/
namespace TeenyLang

open Grammar

theorem numberChars_eq (text : List Char) :
    Target.numberChars text =
      stripZeros (text.takeWhile (· ≠ '.')) ++ text.dropWhile (· ≠ '.') :=
  rfl

theorem stripZeros_stripZeros (digits : List Char) :
    stripZeros (stripZeros digits) = stripZeros digits := by
  by_cases hzeros : (digits.dropWhile (· = '0')).isEmpty
  · have hstrip : stripZeros digits = ['0'] := if_pos hzeros
    rw [hstrip]
    rfl
  · have hstrip : stripZeros digits = digits.dropWhile (· = '0') := if_neg hzeros
    rw [hstrip, stripZeros, List.dropWhile_idempotent, if_neg hzeros]

theorem stripZeros_head (digits : List Char) :
    stripZeros digits = ['0'] ∨ ∃ c ∈ (stripZeros digits).head?, c ≠ '0' := by
  obtain ⟨c, rest, hstrip⟩ := List.exists_cons_of_ne_nil (stripZeros_ne_nil digits)
  have hoctal := stripZeros_octal digits
  rw [hstrip] at hoctal ⊢
  by_cases hc : c = '0'
  · subst hc
    cases rest with
    | nil => exact .inl rfl
    | cons d rest => simp at hoctal
  · exact .inr ⟨c, rfl, hc⟩

section Parts

variable (text : List Char)

-- a zero is put in or taken out, but never a point
theorem point_notMem_stripZeros :
    ∀ c ∈ stripZeros (text.takeWhile (· ≠ '.')), decide (c ≠ '.') := by
  unfold stripZeros
  split
  · simp
  · intro c hc
    have hwhole : c ∈ text.takeWhile (· ≠ '.') := (List.dropWhile_sublist _).subset hc
    exact List.mem_takeWhile_imp (p := (· ≠ '.')) hwhole

theorem whole_numberChars :
    (Target.numberChars text).takeWhile (· ≠ '.') = stripZeros (text.takeWhile (· ≠ '.')) := by
  rw [numberChars_eq]
  exact Lexical.takeWhile_run (point_notMem_stripZeros text) (Lexical.head_dropWhile text)

theorem fraction_numberChars :
    (Target.numberChars text).dropWhile (· ≠ '.') = text.dropWhile (· ≠ '.') := by
  rw [numberChars_eq]
  exact Lexical.dropWhile_run (point_notMem_stripZeros text) (Lexical.head_dropWhile text)

theorem numberChars_numberChars :
    Target.numberChars (Target.numberChars text) = Target.numberChars text := by
  rw [numberChars_eq (Target.numberChars text), whole_numberChars, fraction_numberChars,
    stripZeros_stripZeros, numberChars_eq]

theorem numberValue_numberChars :
    numberValue (Target.numberChars text) = numberValue text := by
  simp only [numberValue]
  rw [whole_numberChars, fraction_numberChars, digitsValue_append, digitsValue_stripZeros,
    ← digitsValue_append]

end Parts

theorem Lexical.Spells.number {text : String} {lexeme : List Char}
    (h : Lexical.Spells .number text lexeme) :
    Lexical.Spells .number (Target.number text) (Target.number text).toList := by
  rw [Target.number, String.toList_ofList]
  cases h with
  | whole hne hdigits =>
    rw [String.toList_ofList, numberChars_whole hdigits]
    exact .whole (stripZeros_ne_nil _) (stripZeros_digits hdigits)
  | decimal hne hwhole hne' hfraction =>
    rw [String.toList_ofList, numberChars_decimal hwhole]
    exact .decimal (stripZeros_ne_nil _) (stripZeros_digits hwhole) hne' hfraction

theorem Lexical.Spells.whole_number {text : String} {lexeme : List Char}
    (h : Lexical.Spells .number text lexeme) :
    (Target.number text).toList.takeWhile (· ≠ '.') = ['0'] ∨
      ∃ c ∈ ((Target.number text).toList.takeWhile (· ≠ '.')).head?, c.isDigit ∧ c ≠ '0' := by
  rw [Target.number, String.toList_ofList, whole_numberChars]
  have hdigits : ∀ c ∈ text.toList.takeWhile (· ≠ '.'), c.isDigit := by
    cases h with
    | whole hne hdigits =>
      intro c hc
      rw [String.toList_ofList] at hc
      exact hdigits c ((List.takeWhile_sublist _).subset hc)
    | decimal hne hwhole hne' hfraction =>
      rw [String.toList_ofList, Lexical.takeWhile_run (digit_ne_point hwhole) (by simp)]
      exact hwhole
  rcases stripZeros_head (text.toList.takeWhile (· ≠ '.')) with hzero | ⟨c, hc, hne⟩
  · exact .inl hzero
  · exact .inr ⟨c, hc, stripZeros_digits hdigits c (List.mem_of_mem_head? hc), hne⟩

theorem constant_number {text : String} {lexeme : List Char}
    (h : Lexical.Spells .number text lexeme) :
    ∃ v, C.constant? (Target.number text).toList = some v ∧
      v.toRat = numberValue text.toList := by
  rw [Target.number, String.toList_ofList]
  cases h with
  | whole hne hdigits =>
    have hpoint : '.' ∉ lexeme := fun hmem => absurd (hdigits _ hmem) (by decide)
    refine ⟨_, by rw [String.toList_ofList, constant_whole hdigits], ?_⟩
    rw [String.toList_ofList, numberValue_whole hpoint]
    rfl
  | decimal hne hwhole hne' hfraction =>
    refine ⟨_, by rw [String.toList_ofList, constant_decimal hwhole hfraction], ?_⟩
    rw [String.toList_ofList, numberValue_decimal hwhole]
    rfl

theorem written_of_next {s s' : Scanner} {t : Token} (h : s.next = .ok t s')
    (hmore : t.kind ≠ .endOfInput) : Written t := by
  unfold Scanner.next at h
  simp only at h
  split at h
  · next kind text length hlexeme =>
    cases h
    obtain ⟨lexeme, _, _, _, hstands⟩ :=
      Lexical.stands_of_readLexeme hlexeme (readLexeme_length_pos hlexeme hmore).2
    exact ⟨lexeme, hstands.spells⟩
  · cases h

/-- The C form of a number that a scanner gives, at whatever place it stands: it has the same value,
is a number of the source language again, and its integer part is a zero alone or begins with
another digit, so that C reads the whole as one decimal constant of that value. To put any text at
all into this form twice is to do it once. -/
theorem number_spelling :
    (∀ (s s' : Scanner) (t : Token), s.next = .ok t s' → t.kind = .number →
      numberValue (Target.number t.text).toList = numberValue t.text.toList ∧
      Lexical.Spells .number (Target.number t.text) (Target.number t.text).toList ∧
      ((Target.number t.text).toList.takeWhile (· ≠ '.') = ['0'] ∨
        ∃ c ∈ ((Target.number t.text).toList.takeWhile (· ≠ '.')).head?, c.isDigit ∧ c ≠ '0') ∧
      C.tokens (Target.number t.text).toList = some [.number (Target.number t.text).toList] ∧
      ∃ v, C.constant? (Target.number t.text).toList = some v ∧
        v.toRat = numberValue t.text.toList) ∧
    ∀ text, Target.number (Target.number text) = Target.number text := by
  constructor
  · intro s s' t hnext hkind
    have hwritten := written_of_next hnext (by simp [hkind])
    obtain ⟨c, run, hchars, hdigit, hrun⟩ := hwritten.number hkind
    obtain ⟨lexeme, hspells⟩ := hwritten
    rw [hkind] at hspells
    refine ⟨?_, hspells.number, hspells.whole_number, ?_, constant_number hspells⟩
    · rw [Target.number, String.toList_ofList, numberValue_numberChars]
    · have hend : C.Ends [] := by simp [C.Ends]
      have htokens := C.tokens_number hdigit hrun hend
      rw [List.append_nil, ← hchars, C.tokens_nil] at htokens
      exact htokens
  · intro text
    rw [Target.number, Target.number, String.toList_ofList, numberChars_numberChars]

/-- Zeros at the head go and those of the fraction stay. -/
theorem number_spelling_zeros :
    numberValue "7.50".toList = numberValue "007.50".toList ∧
      Lexical.Spells .number "7.50" "7.50".toList ∧
      C.tokens "7.50".toList = some [.number "7.50".toList] ∧
      Target.number (Target.number "00") = "0" := by
  obtain ⟨hscanned, htwice⟩ := number_spelling
  obtain ⟨hvalue, hspells, -, htokens, -⟩ :=
    hscanned (Scanner.start "007.50" "zeros") _ ⟨.number, "007.50", ⟨"zeros", 1, 1⟩⟩ rfl rfl
  have hform : Target.number "007.50" = "7.50" := by decide
  rw [hform] at hvalue hspells htokens
  exact ⟨hvalue, hspells, htokens, (htwice "00").trans (by decide)⟩

end TeenyLang
