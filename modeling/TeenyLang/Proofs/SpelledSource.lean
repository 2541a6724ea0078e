import TeenyLang.Proofs.Layout
import TeenyLang.Proofs.ShownLine

set_option autoImplicit false

/-!
# Reading what was spelled

A lexeme with a blank or a newline behind it stands there whatever it is: what would make it longer
cannot hold either character, a string apart, and a string ends with its quote. So tokens that are
written one after the other with a space between them are read back as they were
(`readAll_spaced`).
-/
namespace TeenyLang.Lexical

/-- The kind and the text are those of some lexeme. -/
def Legal (word : Kind × String) : Prop :=
  ∃ lexeme, Spells word.1 word.2 lexeme

def written (word : Kind × String) : String :=
  if word.1 = .string then "\"" ++ word.2 ++ "\"" else word.2

def spaced (words : List (Kind × String)) : String :=
  " ".intercalate (words.map written)

/-! ## Lexemes before a blank -/

theorem Spells.eq_written {kind : Kind} {text : String} {lexeme : List Char}
    (h : Spells kind text lexeme) : (written (kind, text)).toList = lexeme := by
  cases h <;> simp [written]

theorem Legal.spells {word : Kind × String} (h : Legal word) :
    Spells word.1 word.2 (written word).toList := by
  obtain ⟨lexeme, hspells⟩ := h
  rwa [hspells.eq_written]

theorem Spells.string_of_blank {kind : Kind} {text : String} {lexeme : List Char}
    (h : Spells kind text lexeme) (hblank : ' ' ∈ lexeme) : kind = .string := by
  have hword {chars : List Char} (hchars : ∀ c ∈ chars, c.isAlphanum) : ' ' ∉ chars :=
    fun hmem => absurd (hchars _ hmem) (by decide)
  have hdigit {c : Char} (hc : c.isDigit) : c.isAlphanum := by simp [Char.isAlphanum, hc]
  cases h with
  | newline => simp at hblank
  | @operator op _ hop =>
    obtain rfl := mem_operatorTexts.1 hop
    exact absurd hblank (by cases op <;> decide)
  | whole _ hdigits => exact absurd hblank (hword fun c hc => hdigit (hdigits c hc))
  | decimal _ hwhole _ hfraction =>
    rcases List.mem_append.1 hblank with hblank | hblank
    · exact absurd hblank (hword fun c hc => hdigit (hwhole c hc))
    · have hmem := (List.mem_cons.1 hblank).resolve_left (by decide)
      exact absurd hmem (hword fun c hc => hdigit (hfraction c hc))
  | @keyword word _ hkeyword =>
    obtain rfl := mem_reservedTexts.1 hkeyword
    exact absurd hblank (by cases word <;> decide)
  | identifier hfirst hmore =>
    refine absurd hblank (hword (List.forall_mem_cons.2 ⟨?_, hmore⟩))
    simp [Char.isAlphanum, hfirst]
  | string => rfl

theorem Spells.head_quote {kind : Kind} {text : String} {lexeme : List Char}
    (h : Spells kind text lexeme) : lexeme.head? = some '"' ↔ kind = .string := by
  have hword {c : Char} (hc : c.isAlphanum) : some c ≠ some '"' := by
    rintro ⟨rfl⟩
    exact absurd hc (by decide)
  have hdigits {digits : List Char} (hne : digits ≠ []) (hdigits : ∀ c ∈ digits, c.isDigit) :
      digits.head? ≠ some '"' := by
    obtain ⟨c, more, rfl⟩ := List.exists_cons_of_ne_nil hne
    exact hword (by simp [Char.isAlphanum, hdigits c (by simp)])
  cases h with
  | newline => simp
  | @operator op _ hop =>
    obtain rfl := mem_operatorTexts.1 hop
    cases op <;> decide
  | whole hne hwhole => simpa using hdigits hne hwhole
  | decimal hne hwhole =>
    rw [List.head?_append_of_ne_nil _ hne]
    simpa using hdigits hne hwhole
  | @keyword word _ hkeyword =>
    obtain rfl := mem_reservedTexts.1 hkeyword
    cases word <;> decide
  | identifier hfirst => simpa using hword (by simp [Char.isAlphanum, hfirst])
  | string => simp

theorem stands_of_found {kind : Kind} {text : String} {lexeme rest : List Char}
    (h : readLexeme (lexeme ++ rest) = .found kind text lexeme.length) (hne : lexeme ≠ []) :
    Stands kind text lexeme rest := by
  obtain ⟨lexeme', rest', htext, hlength, hstands⟩ := stands_of_readLexeme h (by simp [hne])
  obtain ⟨rfl, rfl⟩ := List.append_inj htext hlength.symm
  exact hstands

/-- A lexeme ends at a blank or a newline, and a string at its quote. -/
theorem Spells.stands {kind : Kind} {text : String} {lexeme : List Char}
    (h : Spells kind text lexeme) {c : Char} (hc : c = ' ' ∨ c = '\n') (rest : List Char) :
    Stands kind text lexeme (c :: rest) := by
  by_cases hstring : kind = .string
  · cases h with
    | string hinside => exact stands_of_found (readLexeme_string _ hinside) (by simp)
    | _ => cases hstring
  · refine ⟨h, ?_, ?_⟩
    · intro kind' text' longer hlonger hbegins
      by_contra hlt
      have hextends : lexeme ++ [c] <+: longer := by
        refine List.prefix_of_prefix_length_le ⟨rest, by simp⟩ hbegins ?_
        rw [List.length_append, List.length_singleton]
        omega
      obtain ⟨tail, rfl⟩ := hextends
      rcases hc with rfl | rfl
      · -- Only a string holds the blank, and it would begin with its quote.
        have hquote := hlonger.head_quote.2 (hlonger.string_of_blank (by simp))
        rw [List.append_assoc, List.head?_append_of_ne_nil _ h.ne_nil] at hquote
        exact hstring (h.head_quote.1 hquote)
      · rcases hlonger.chars with ⟨_, halone⟩ | ⟨_, hfree⟩
        · simp [List.append_eq_cons_iff, h.ne_nil] at halone
        · exact (hfree '\n' (by simp)).1 rfl
    · rintro _ _ after hafter
      cases hafter
      simp at hc

/-! ## The split of a spaced text -/

/-- The pieces of a spaced text and of the newline after it: `gap` stands before the first. -/
def spacedPieces (gap : List Char) : List (Kind × String) → List Piece
  | [] => [⟨[], ['\n'], .newline, "\n"⟩]
  | word :: words => ⟨gap, (written word).toList, word.1, word.2⟩ :: spacedPieces [' '] words

theorem chars_spacedPieces (gap : List Char) (word : Kind × String)
    (words : List (Kind × String)) :
    (spacedPieces gap (word :: words)).flatMap Piece.chars =
      gap ++ (spaced (word :: words)).toList ++ ['\n'] := by
  have hspaced (words : List (Kind × String)) :
      (spaced words).toList = [' '].intercalate ((words.map written).map String.toList) :=
    String.toList_intercalate
  induction words generalizing gap word with
  | nil => simp [spacedPieces, hspaced, Piece.chars]
  | cons next words ih =>
    rw [spacedPieces, List.flatMap_cons, ih [' '] next]
    simp [hspaced, Piece.chars, List.intercalate_cons_cons]

theorem chars_spaced (words : List (Kind × String)) :
    (spacedPieces [] words).flatMap Piece.chars = (spaced words).toList ++ ['\n'] := by
  cases words with
  | nil => rfl
  | cons word words => exact chars_spacedPieces [] word words

theorem head_spacedPieces (words : List (Kind × String)) :
    ∃ c rest, (spacedPieces [' '] words).flatMap Piece.chars = c :: rest ∧
      (c = ' ' ∨ c = '\n') := by
  cases words with
  | nil => exact ⟨'\n', [], rfl, .inr rfl⟩
  | cons word words => exact ⟨' ', _, rfl, .inl rfl⟩

theorem isGap_spaces {gap : List Char} (h : ∀ c ∈ gap, c = ' ') (rest : List Char) :
    IsGap gap rest :=
  ⟨gap, [], by simp, fun c hc => by simp [h c hc], .inl rfl⟩

theorem isSplit_spaced {words : List (Kind × String)} (hwords : ∀ word ∈ words, Legal word)
    {gap : List Char} (hgap : ∀ c ∈ gap, c = ' ') :
    IsSplit (spacedPieces gap words) ((spacedPieces gap words).flatMap Piece.chars) := by
  induction words generalizing gap with
  | nil => exact .cons (isGap_spaces (by simp) _) (stands_of_found rfl (by simp)) .nil
  | cons word words ih =>
    obtain ⟨hword, hwords⟩ := List.forall_mem_cons.1 hwords
    have hrest : IsSplit (spacedPieces [' '] words) _ := ih hwords (by simp)
    obtain ⟨c, rest, htext, hc⟩ := head_spacedPieces words
    rw [spacedPieces, List.flatMap_cons]
    rw [htext] at hrest ⊢
    exact .cons (isGap_spaces hgap _) (hword.spells.stands hc rest) hrest

theorem spelled_tokensAfter (file : String) (before gap : List Char)
    (words : List (Kind × String)) :
    (tokensAfter file before (spacedPieces gap words)).map Token.spelled =
      words ++ [(.newline, "\n")] := by
  induction words generalizing before gap with
  | nil => rfl
  | cons word words ih =>
    rw [spacedPieces, tokensAfter, List.map_cons, ih]
    rfl

/-- Tokens written with a space between each two of them are read back as they were, with the
newline after the source and the end of the input behind them, exactly if each of them is a
legal one. -/
theorem readAll_spaced (words : List (Kind × String)) (file : String) :
    (∀ word ∈ words, Legal word) ↔
      (Scanner.start (spaced words) file).readAll.failure = none ∧
      (Scanner.start (spaced words) file).readAll.tokens.map Token.spelled =
        words ++ [(.newline, "\n"), (.endOfInput, "")] := by
  constructor
  · intro hwords
    have hsplit : IsSplit (spacedPieces [] words) _ := isSplit_spaced hwords (by simp)
    rw [chars_spaced] at hsplit
    obtain ⟨hfailure, htokens⟩ := readAll_of_isSplit hsplit (placed_source _ file) rfl
    refine ⟨hfailure, ?_⟩
    rw [htokens, List.map_append, spelled_tokensAfter, List.append_assoc]
    rfl
  · rintro ⟨hfailure, htokens⟩ word hword
    obtain ⟨ts, ends, hread, hts, hends⟩ := List.map_eq_append_iff.1 htokens
    obtain ⟨newline, last, rfl⟩ : ∃ newline last, ends = [newline, last] := by
      rcases ends with _ | ⟨newline, _ | ⟨last, _ | _⟩⟩ <;> simp at hends ⊢
    rw [← List.singleton_append, ← List.append_assoc] at hread
    obtain ⟨t, ht, rfl⟩ := List.mem_map.1 (hts ▸ hword)
    exact spells_of_readAll hfailure hread t (List.mem_append_left _ ht)

example : spaced [(.operator .assign, "="), (.string, "# b"), (.number, "1.5")] =
    "= \"# b\" 1.5" := by
  decide +kernel

end TeenyLang.Lexical
