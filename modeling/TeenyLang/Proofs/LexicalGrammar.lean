import TeenyLang.Token.Lexeme
import Mathlib.Data.List.Basic
import Mathlib.Data.List.TakeWhile

set_option autoImplicit false

/-!
# The lexical grammar

`Spells kind text lexeme` says which characters a token may be written with. Of the lexemes that
begin at a place the longest one stands there, and `readLexeme` finds it: `Stands` is the rule
without the reader, and `readLexeme_of_stands` and `stands_of_readLexeme` are the two directions.
-/
namespace TeenyLang.Lexical

def operatorTexts : List (Operator × String) :=
  [(.plus, "+"), (.minus, "-"), (.asterisk, "*"), (.slash, "/"), (.assign, "="), (.equal, "=="),
    (.less, "<"), (.lessEqual, "<="), (.greater, ">"), (.greaterEqual, ">="), (.notEqual, "!=")]

def reservedTexts : List (Keyword × String) :=
  [(.LABEL, "LABEL"), (.GOTO, "GOTO"), (.PRINT, "PRINT"), (.INPUT, "INPUT"), (.LET, "LET"),
    (.IF, "IF"), (.THEN, "THEN"), (.ENDIF, "ENDIF"), (.WHILE, "WHILE"), (.REPEAT, "REPEAT"),
    (.ENDWHILE, "ENDWHILE")]

/-- The characters of a token of the given kind and text. Only a string is written with more
than its text. -/
inductive Spells : Kind → String → List Char → Prop
  | newline : Spells .newline "\n" ['\n']
  | operator {op : Operator} {text : String} (hop : (op, text) ∈ operatorTexts) :
      Spells (.operator op) text text.toList
  | whole {digits : List Char} (hne : digits ≠ []) (hdigits : ∀ c ∈ digits, c.isDigit) :
      Spells .number (.ofList digits) digits
  | decimal {whole fraction : List Char} (hne : whole ≠ []) (hwhole : ∀ c ∈ whole, c.isDigit)
      (hne' : fraction ≠ []) (hfraction : ∀ c ∈ fraction, c.isDigit) :
      Spells .number (.ofList (whole ++ '.' :: fraction)) (whole ++ '.' :: fraction)
  | keyword {word : Keyword} {text : String} (hword : (word, text) ∈ reservedTexts) :
      Spells (.keyword word) text text.toList
  | identifier {first : Char} {more : List Char} (hfirst : first.isAlpha)
      (hmore : ∀ c ∈ more, c.isAlphanum)
      (hfree : ∀ word ∈ reservedTexts, word.2 ≠ .ofList (first :: more)) :
      Spells .identifier (.ofList (first :: more)) (first :: more)
  | string {inside : List Char} (hinside : ∀ c ∈ inside, c ∉ ['"', '\r', '\n', '\t', '\\', '%']) :
      Spells .string (.ofList inside) ('"' :: (inside ++ ['"']))

/-- No lexeme that begins where this one does is longer. -/
def Longest (lexeme rest : List Char) : Prop :=
  ∀ kind text longer, Spells kind text longer → longer <+: lexeme ++ rest →
    longer.length ≤ lexeme.length

def PointFollowed (kind : Kind) (lexeme rest : List Char) : Prop :=
  kind = .number → '.' ∉ lexeme → ∀ after, rest = '.' :: after → ∃ d ∈ after.head?, d.isDigit

structure Stands (kind : Kind) (text : String) (lexeme rest : List Char) : Prop where
  spells : Spells kind text lexeme
  longest : Longest lexeme rest
  point : PointFollowed kind lexeme rest

theorem mem_operatorTexts {op : Operator} {text : String} :
    (op, text) ∈ operatorTexts ↔ text = op.spelling := by
  cases op <;> simp [operatorTexts, Operator.spelling]

theorem mem_reservedTexts {word : Keyword} {text : String} :
    (word, text) ∈ reservedTexts ↔ text = word.spelling := by
  cases word <;> simp [reservedTexts, Keyword.spelling]

theorem spells_operator (op : Operator) :
    Spells (.operator op) op.spelling op.spelling.toList :=
  .operator (mem_operatorTexts.2 rfl)

theorem Longest.not_spells {lexeme rest extra : List Char} {kind : Kind} {text : String}
    (h : Longest lexeme rest) (hextra : extra <+: rest) (hne : extra ≠ []) :
    ¬ Spells kind text (lexeme ++ extra) := by
  intro hspells
  have hle := h kind text _ hspells ((List.prefix_append_right_inj lexeme).2 hextra)
  have hpositive := List.length_pos_iff.2 hne
  rw [List.length_append] at hle
  omega

/-! ## Runs of characters -/

section Runs

variable {p : Char → Bool} {run rest : List Char}

theorem takeWhile_run (hrun : ∀ c ∈ run, p c) (hrest : ∀ c ∈ rest.head?, p c = false) :
    (run ++ rest).takeWhile p = run := by
  rw [List.takeWhile_append_of_pos hrun]
  cases rest with
  | nil => simp
  | cons c rest => simp [hrest c rfl]

theorem dropWhile_run (hrun : ∀ c ∈ run, p c) (hrest : ∀ c ∈ rest.head?, p c = false) :
    (run ++ rest).dropWhile p = rest := by
  rw [List.dropWhile_append_of_pos hrun]
  cases rest with
  | nil => simp
  | cons c rest => simp [hrest c rfl]

theorem drop_takeWhile (text : List Char) :
    text.drop (text.takeWhile p).length = text.dropWhile p :=
  (congrArg (List.drop _) List.takeWhile_append_dropWhile.symm).trans List.drop_left

theorem head_dropWhile (text : List Char) : ∀ c ∈ (text.dropWhile p).head?, p c = false := by
  intro c hc
  have h := List.head?_dropWhile_not p text
  rw [hc] at h
  simpa using h

theorem length_le_takeWhile {text : List Char} (hrun : ∀ c ∈ run, p c) (hbegin : run <+: text) :
    run.length ≤ (text.takeWhile p).length := by
  obtain ⟨rest, rfl⟩ := hbegin
  rw [List.takeWhile_append_of_pos hrun, List.length_append]
  omega

end Runs

/-! ## The branches of the reader -/

theorem digit_ne {c : Char} (h : c.isDigit) : c ≠ '\n' ∧ c ≠ '"' := by
  constructor <;> rintro rfl <;> exact absurd h (by decide)

theorem letter_ne {c : Char} (h : c.isAlpha) : c ≠ '\n' ∧ c ≠ '"' ∧ c.isDigit = false := by
  refine ⟨?_, ?_, ?_⟩
  · rintro rfl
    exact absurd h (by decide)
  · rintro rfl
    exact absurd h (by decide)
  · have hletter : (decide (c.val ≥ 'A'.val ∧ c.val ≤ 'Z'.val) ||
        (decide (c.val ≥ 'a'.val) && decide (c.val ≤ 'z'.val))) = true := h
    simp only [Char.isDigit, Bool.or_eq_true, Bool.and_eq_true, decide_eq_true_eq,
      Bool.and_eq_false_iff, decide_eq_false_iff_not, UInt32.le_iff_toNat_le, ge_iff_le]
      at hletter ⊢
    have hdigit : '9'.val.toNat = 57 := rfl
    have hupper : 'A'.val.toNat = 65 := rfl
    have hlower : 'a'.val.toNat = 97 := rfl
    omega

theorem readLexeme_digit {c : Char} (h : c.isDigit) (rest : List Char) :
    readLexeme (c :: rest) = Lexeme.readNumber (c :: rest) := by
  obtain ⟨hnewline, hquote⟩ := digit_ne h
  simp only [readLexeme, hnewline, hquote, h, ↓reduceIte]

theorem readLexeme_digits {digits : List Char} (hne : digits ≠ [])
    (hdigits : ∀ c ∈ digits, c.isDigit) (rest : List Char) :
    readLexeme (digits ++ rest) = Lexeme.readNumber (digits ++ rest) := by
  obtain ⟨c, more, rfl⟩ := List.exists_cons_of_ne_nil hne
  exact readLexeme_digit (hdigits c (by simp)) (more ++ rest)

theorem readLexeme_letter {c : Char} (h : c.isAlpha) (rest : List Char) :
    readLexeme (c :: rest) = Lexeme.readWord (c :: rest) := by
  obtain ⟨hnewline, hquote, hdigit⟩ := letter_ne h
  simp only [readLexeme, hnewline, hquote, hdigit, h, ↓reduceIte, Bool.false_eq_true]

/-! ## Words -/

theorem ofWord_spelling (word : Keyword) : Kind.ofWord word.spelling = .keyword word := by
  cases word <;> decide

theorem ofWord_identifier {text : String} (hfree : ∀ word ∈ reservedTexts, word.2 ≠ text) :
    Kind.ofWord text = .identifier := by
  have hnone : Keyword.ofSpelling? text = none := by
    rw [Keyword.ofSpelling?, List.find?_eq_none]
    intro word _
    simpa using hfree (word, word.spelling) (mem_reservedTexts.2 rfl)
  simp only [Kind.ofWord, hnone]

theorem spelling_word (word : Keyword) :
    ∃ first more, word.spelling.toList = first :: more ∧ first.isAlpha ∧
      ∀ c ∈ more, c.isAlphanum := by
  cases word <;> exact ⟨_, _, rfl, by decide, List.all_eq_true.1 (by decide)⟩

theorem spells_word {first : Char} {more : List Char} (hfirst : first.isAlpha)
    (hmore : ∀ c ∈ more, c.isAlphanum) :
    Spells (.ofWord (.ofList (first :: more))) (.ofList (first :: more)) (first :: more) := by
  by_cases hfree : ∀ word ∈ reservedTexts, word.2 ≠ .ofList (first :: more)
  · rw [ofWord_identifier hfree]
    exact .identifier hfirst hmore hfree
  · push Not at hfree
    obtain ⟨⟨word, text⟩, hword, rfl⟩ := hfree
    have hkeyword := Spells.keyword hword
    rw [String.toList_ofList] at hkeyword
    rwa [mem_reservedTexts.1 hword, ofWord_spelling, ← mem_reservedTexts.1 hword]

theorem readLexeme_word {first : Char} {more rest : List Char} (hfirst : first.isAlpha)
    (hmore : ∀ c ∈ more, c.isAlphanum) (hlongest : Longest (first :: more) rest) :
    readLexeme (first :: more ++ rest) =
      .found (.ofWord (.ofList (first :: more))) (.ofList (first :: more))
        (first :: more).length := by
  have hall : ∀ c ∈ first :: more, c.isAlphanum := by
    simpa [Char.isAlphanum, hfirst] using hmore
  -- A letter or a digit after the word would make a longer one.
  have hrest : ∀ c ∈ rest.head?, c.isAlphanum = false := by
    intro c hc
    by_contra hletter
    obtain ⟨rest, rfl⟩ := List.head?_eq_some_iff.1 hc
    have hlonger : ∀ d ∈ more ++ [c], d.isAlphanum :=
      List.forall_mem_append.2 ⟨hmore, List.forall_mem_singleton.2 (by simpa using hletter)⟩
    exact hlongest.not_spells ⟨rest, rfl⟩ (by simp) (spells_word hfirst hlonger)
  rw [List.cons_append, readLexeme_letter hfirst, ← List.cons_append, Lexeme.readWord,
    takeWhile_run hall hrest]

/-! ## Numbers -/

theorem readLexeme_whole {digits rest : List Char} (hne : digits ≠ [])
    (hdigits : ∀ c ∈ digits, c.isDigit) (hlongest : Longest digits rest)
    (hpoint : PointFollowed .number digits rest) :
    readLexeme (digits ++ rest) = .found .number (.ofList digits) digits.length := by
  have hrest : ∀ c ∈ rest.head?, c.isDigit = false := by
    intro c hc
    by_contra hdigit
    obtain ⟨rest, rfl⟩ := List.head?_eq_some_iff.1 hc
    have hlonger : ∀ d ∈ digits ++ [c], d.isDigit :=
      List.forall_mem_append.2 ⟨hdigits, List.forall_mem_singleton.2 (by simpa using hdigit)⟩
    exact hlongest.not_spells ⟨rest, rfl⟩ (by simp) (.whole (by simp) hlonger)
  -- After a point there is a digit, so the number with both would be longer.
  have hstop : ∀ after, rest ≠ '.' :: after := by
    rintro after rfl
    have hclean : '.' ∉ digits := fun h => absurd (hdigits _ h) (by decide)
    obtain ⟨d, hd, hdigit⟩ := hpoint rfl hclean after rfl
    obtain ⟨after, rfl⟩ := List.head?_eq_some_iff.1 hd
    exact hlongest.not_spells (show ['.', d] <+: '.' :: d :: after from ⟨after, rfl⟩) (by simp)
      (.decimal hne hdigits (by simp) (by simpa using hdigit))
  rw [readLexeme_digits hne hdigits, Lexeme.readNumber, takeWhile_run hdigits hrest,
    dropWhile_run hdigits hrest]
  split
  · next after => exact absurd rfl (hstop after)
  · rfl

theorem readLexeme_decimal {whole fraction rest : List Char} (hne : whole ≠ [])
    (hwhole : ∀ c ∈ whole, c.isDigit) (hne' : fraction ≠ [])
    (hfraction : ∀ c ∈ fraction, c.isDigit) (hlongest : Longest (whole ++ '.' :: fraction) rest) :
    readLexeme (whole ++ '.' :: fraction ++ rest) =
      .found .number (.ofList (whole ++ '.' :: fraction)) (whole ++ '.' :: fraction).length := by
  have hrest : ∀ c ∈ rest.head?, c.isDigit = false := by
    intro c hc
    by_contra hdigit
    obtain ⟨rest, rfl⟩ := List.head?_eq_some_iff.1 hc
    have hlonger : ∀ d ∈ fraction ++ [c], d.isDigit :=
      List.forall_mem_append.2 ⟨hfraction, List.forall_mem_singleton.2 (by simpa using hdigit)⟩
    have hspells := Spells.decimal hne hwhole (by simp) hlonger
    rw [← List.cons_append, ← List.append_assoc] at hspells
    exact hlongest.not_spells ⟨rest, rfl⟩ (by simp) hspells
  have hpoint : ∀ c ∈ ('.' :: (fraction ++ rest)).head?, c.isDigit = false := by simp
  rw [List.append_assoc, List.cons_append, readLexeme_digits hne hwhole, Lexeme.readNumber,
    takeWhile_run hwhole hpoint, dropWhile_run hwhole hpoint]
  simp only [takeWhile_run hfraction hrest, List.isEmpty_iff, hne', ↓reduceIte, List.length_append,
    List.length_cons]
  congr 1
  omega

/-! ## Operators and strings -/

theorem readLexeme_operator {op : Operator} {rest : List Char}
    (hlongest : Longest op.spelling.toList rest) :
    readLexeme (op.spelling.toList ++ rest) =
      .found (.operator op) op.spelling op.spelling.length := by
  -- An operator of one character that begins a longer one is not followed by its second.
  have hequals : ∀ longer : Operator, longer.spelling.toList = op.spelling.toList ++ ['='] →
      rest.head? ≠ some '=' := by
    intro longer hspelling hhead
    obtain ⟨rest, rfl⟩ := List.head?_eq_some_iff.1 hhead
    have hlonger := spells_operator longer
    rw [hspelling] at hlonger
    exact hlongest.not_spells ⟨rest, rfl⟩ (by simp) hlonger
  cases op with
  | assign =>
    have hhead := hequals .equal rfl
    simp_all [readLexeme, Lexeme.readOperator, Lexeme.ofOperator, Operator.spelling]
  | less =>
    have hhead := hequals .lessEqual rfl
    simp_all [readLexeme, Lexeme.readOperator, Lexeme.ofOperator, Operator.spelling]
  | greater =>
    have hhead := hequals .greaterEqual rfl
    simp_all [readLexeme, Lexeme.readOperator, Lexeme.ofOperator, Operator.spelling]
  | _ => rfl

theorem isStringChar_iff (c : Char) :
    Lexeme.isStringChar c ↔ c ∉ ['"', '\r', '\n', '\t', '\\', '%'] := by
  simp [Lexeme.isStringChar, Lexeme.stringStops]

theorem readLexeme_string {inside : List Char} (rest : List Char)
    (hinside : ∀ c ∈ inside, c ∉ ['"', '\r', '\n', '\t', '\\', '%']) :
    readLexeme ('"' :: (inside ++ ['"']) ++ rest) =
      .found .string (.ofList inside) ('"' :: (inside ++ ['"'])).length := by
  have hrun : ∀ c ∈ inside, Lexeme.isStringChar c :=
    fun c hc => (isStringChar_iff c).2 (hinside c hc)
  have hquote : ∀ c ∈ ('"' :: rest).head?, Lexeme.isStringChar c = false := by
    simp [Lexeme.isStringChar, Lexeme.stringStops]
  have hsplit : '"' :: (inside ++ ['"']) ++ rest = '"' :: (inside ++ '"' :: rest) := by simp
  rw [hsplit]
  change Lexeme.readString (inside ++ '"' :: rest) = _
  rw [Lexeme.readString, takeWhile_run hrun hquote, dropWhile_run hrun hquote]
  simp

theorem readLexeme_of_stands {kind : Kind} {text : String} {lexeme rest : List Char}
    (h : Stands kind text lexeme rest) :
    readLexeme (lexeme ++ rest) = .found kind text lexeme.length := by
  obtain ⟨hspells, hlongest, hpoint⟩ := h
  cases hspells with
  | newline => rfl
  | operator hop =>
    obtain rfl := mem_operatorTexts.1 hop
    exact readLexeme_operator hlongest
  | whole hne hdigits => exact readLexeme_whole hne hdigits hlongest hpoint
  | decimal hne hwhole hne' hfraction =>
    exact readLexeme_decimal hne hwhole hne' hfraction hlongest
  | @keyword word _ hword =>
    obtain rfl := mem_reservedTexts.1 hword
    obtain ⟨first, more, hspelling, hfirst, hmore⟩ := spelling_word word
    rw [hspelling] at hlongest ⊢
    have htext : String.ofList (first :: more) = word.spelling := by
      rw [← hspelling, String.ofList_toList]
    rw [readLexeme_word hfirst hmore hlongest, htext, ofWord_spelling]
  | @identifier first more hfirst hmore hfree =>
    rw [readLexeme_word hfirst hmore hlongest, ofWord_identifier hfree]
  | string hinside => exact readLexeme_string rest hinside

/-! ## What the reader finds -/

/-- A lexeme of `length` characters at the head of `input`. -/
def Begins (input : List Char) (kind : Kind) (text : String) (length : Nat) : Prop :=
  ∃ lexeme rest, input = lexeme ++ rest ∧ lexeme.length = length ∧ Spells kind text lexeme ∧
    PointFollowed kind lexeme rest

theorem readNumber_begins {c : Char} {input : List Char} {kind : Kind} {text : String}
    {length : Nat} (hdigit : c.isDigit)
    (h : Lexeme.readNumber (c :: input) = .found kind text length) :
    Begins (c :: input) kind text length := by
  have hall : ∀ d ∈ (c :: input).takeWhile Char.isDigit, d.isDigit :=
    fun d hd => List.mem_takeWhile_imp hd
  have hne : (c :: input).takeWhile Char.isDigit ≠ [] := by
    simp [hdigit]
  have hsplit := (List.takeWhile_append_dropWhile (p := Char.isDigit) (l := c :: input)).symm
  unfold Lexeme.readNumber at h
  simp only at h
  split at h
  · next after hafter =>
    rw [hafter] at hsplit
    split at h
    · cases h
    · next hfraction =>
      cases h
      rw [List.isEmpty_iff] at hfraction
      refine ⟨_ ++ '.' :: after.takeWhile Char.isDigit, after.dropWhile Char.isDigit, ?_, ?_,
        .decimal hne hall hfraction fun d hd => List.mem_takeWhile_imp hd, ?_⟩
      · simpa [List.takeWhile_append_dropWhile] using hsplit
      · simp only [List.length_append, List.length_cons]
        omega
      · intro _ hclean
        exact absurd (by simp) hclean
  · next hstop =>
    cases h
    exact ⟨_, _, hsplit, rfl, .whole hne hall, fun _ _ after hafter => absurd hafter (hstop after)⟩

theorem readWord_begins {c : Char} {input : List Char} {kind : Kind} {text : String}
    {length : Nat} (hletter : c.isAlpha)
    (h : Lexeme.readWord (c :: input) = .found kind text length) :
    Begins (c :: input) kind text length := by
  have hrun : (c :: input).takeWhile Char.isAlphanum = c :: input.takeWhile Char.isAlphanum := by
    simp [Char.isAlphanum, hletter]
  rw [Lexeme.readWord, hrun] at h
  cases h
  refine ⟨_, input.dropWhile Char.isAlphanum, ?_, rfl,
    spells_word hletter fun d hd => List.mem_takeWhile_imp hd, ?_⟩
  · rw [List.cons_append, List.takeWhile_append_dropWhile]
  · intro hkind
    unfold Kind.ofWord at hkind
    split at hkind <;> cases hkind

theorem readString_begins {input : List Char} {kind : Kind} {text : String} {length : Nat}
    (h : Lexeme.readString input = .found kind text length) :
    Begins ('"' :: input) kind text length := by
  have hsplit := (List.takeWhile_append_dropWhile (p := Lexeme.isStringChar) (l := input)).symm
  unfold Lexeme.readString at h
  simp only at h
  split at h
  · next after hafter =>
    cases h
    rw [hafter] at hsplit
    refine ⟨'"' :: (input.takeWhile Lexeme.isStringChar ++ ['"']), after, ?_, by simp,
      .string fun c hc => (isStringChar_iff c).1 (List.mem_takeWhile_imp hc),
      fun hkind => nomatch hkind⟩
    simpa using hsplit
  · cases h
  · cases h

theorem ofOperator_begins {op : Operator} {input rest : List Char} {kind : Kind} {text : String}
    {length : Nat} (hspelling : input = op.spelling.toList ++ rest)
    (h : Lexeme.ofOperator op = .found kind text length) : Begins input kind text length := by
  cases h
  exact ⟨_, rest, hspelling, rfl, spells_operator op, fun hkind => nomatch hkind⟩

theorem readOperator_begins {c : Char} {input : List Char} {kind : Kind} {text : String}
    {length : Nat} (h : Lexeme.readOperator c input = .found kind text length) :
    Begins (c :: input) kind text length := by
  unfold Lexeme.readOperator at h
  by_cases hextended : input.head? = some '='
  · obtain ⟨input, rfl⟩ := List.head?_eq_some_iff.1 hextended
    simp only [hextended, ↓reduceIte] at h
    split at h
    case h_9 => cases h
    all_goals exact ofOperator_begins rfl h
  · simp only [hextended, ↓reduceIte] at h
    split at h
    case h_8 => cases h
    case h_9 => cases h
    all_goals exact ofOperator_begins rfl h

theorem readLexeme_begins {input : List Char} {kind : Kind} {text : String} {length : Nat}
    (h : readLexeme input = .found kind text length) (hmore : input ≠ []) :
    Begins input kind text length := by
  obtain ⟨c, input, rfl⟩ := List.exists_cons_of_ne_nil hmore
  simp only [readLexeme] at h
  split at h
  · next hnewline =>
    cases h
    subst hnewline
    exact ⟨['\n'], input, rfl, rfl, .newline, fun hkind => nomatch hkind⟩
  split at h
  · next hquote =>
    subst hquote
    exact readString_begins h
  split at h
  · next hdigit => exact readNumber_begins hdigit h
  split at h
  · next hletter => exact readWord_begins hletter h
  · exact readOperator_begins h

/-! ## The longest lexeme -/

theorem le_readNumber {input : List Char} {kind : Kind} {text : String} {length : Nat}
    (h : Lexeme.readNumber input = .found kind text length) :
    (input.takeWhile Char.isDigit).length ≤ length := by
  unfold Lexeme.readNumber at h
  simp only at h
  repeat' split at h
  all_goals cases h
  · omega
  · exact le_rfl

theorem le_readNumber_decimal {whole fraction rest : List Char} {kind : Kind} {text : String}
    {length : Nat} (hwhole : ∀ c ∈ whole, c.isDigit) (hfraction : ∀ c ∈ fraction, c.isDigit)
    (h : Lexeme.readNumber (whole ++ '.' :: (fraction ++ rest)) = .found kind text length) :
    (whole ++ '.' :: fraction).length ≤ length := by
  have hpoint : ∀ c ∈ ('.' :: (fraction ++ rest)).head?, c.isDigit = false := by simp
  rw [Lexeme.readNumber, takeWhile_run hwhole hpoint, dropWhile_run hwhole hpoint] at h
  simp only at h
  split at h
  · cases h
  · cases h
    have hle := length_le_takeWhile hfraction (List.prefix_append fraction rest)
    simp only [List.length_append, List.length_cons]
    omega

theorem le_readLexeme_word {first : Char} {more rest : List Char} {kind : Kind} {text : String}
    {length : Nat} (hfirst : first.isAlpha) (hmore : ∀ c ∈ more, c.isAlphanum)
    (h : readLexeme (first :: more ++ rest) = .found kind text length) :
    (first :: more).length ≤ length := by
  have hall : ∀ c ∈ first :: more, c.isAlphanum := by
    simpa [Char.isAlphanum, hfirst] using hmore
  have hle := length_le_takeWhile hall (List.prefix_append (first :: more) rest)
  rw [List.cons_append, readLexeme_letter hfirst, ← List.cons_append, Lexeme.readWord] at h
  cases h
  exact hle

theorem Spells.ne_nil {kind : Kind} {text : String} {lexeme : List Char}
    (h : Spells kind text lexeme) : lexeme ≠ [] := by
  cases h with
  | @operator op _ hop =>
    obtain rfl := mem_operatorTexts.1 hop
    cases op <;> decide
  | whole hne => exact hne
  | @keyword word _ hword =>
    obtain rfl := mem_reservedTexts.1 hword
    cases word <;> decide
  | _ => simp

theorem Spells.length_le {kind kind' : Kind} {text text' : String} {lexeme rest : List Char}
    {length : Nat} (hspells : Spells kind text lexeme)
    (h : readLexeme (lexeme ++ rest) = .found kind' text' length) : lexeme.length ≤ length := by
  cases hspells with
  | newline =>
    cases h
    exact le_rfl
  | @operator op _ hop =>
    obtain rfl := mem_operatorTexts.1 hop
    have hpositive : 1 ≤ length := by
      obtain ⟨found, _, _, rfl, hfound, _⟩ :=
        readLexeme_begins h (by simp [(spells_operator op).ne_nil])
      exact List.length_pos_iff.2 hfound.ne_nil
    cases op with
    | equal | notEqual | lessEqual | greaterEqual =>
      cases h
      exact le_rfl
    | _ => exact hpositive
  | whole hne hdigits =>
    rw [readLexeme_digits hne hdigits] at h
    exact (length_le_takeWhile hdigits (List.prefix_append _ _)).trans (le_readNumber h)
  | @decimal whole fraction hne hwhole hne' hfraction =>
    rw [List.append_assoc, List.cons_append, readLexeme_digits hne hwhole] at h
    exact le_readNumber_decimal hwhole hfraction h
  | @keyword word _ hword =>
    obtain rfl := mem_reservedTexts.1 hword
    obtain ⟨first, more, hspelling, hfirst, hmore⟩ := spelling_word word
    rw [hspelling] at h ⊢
    exact le_readLexeme_word hfirst hmore h
  | identifier hfirst hmore hfree => exact le_readLexeme_word hfirst hmore h
  | string hinside =>
    rw [readLexeme_string rest hinside] at h
    cases h
    exact le_rfl

theorem stands_of_readLexeme {input : List Char} {kind : Kind} {text : String} {length : Nat}
    (h : readLexeme input = .found kind text length) (hmore : input ≠ []) :
    ∃ lexeme rest, input = lexeme ++ rest ∧ lexeme.length = length ∧
      Stands kind text lexeme rest := by
  obtain ⟨lexeme, rest, rfl, rfl, hspells, hpoint⟩ := readLexeme_begins h hmore
  refine ⟨lexeme, rest, rfl, rfl, hspells, ?_, hpoint⟩
  rintro kind' text' longer hlonger ⟨after, hafter⟩
  rw [← hafter] at h
  exact hlonger.length_le h

end TeenyLang.Lexical
