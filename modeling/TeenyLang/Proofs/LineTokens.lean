import TeenyLang.Proofs.CGrammar
import TeenyLang.Proofs.PrintedText
import Mathlib.Data.Bool.AllAny

set_option autoImplicit false

/-!
# The tokens of the lines of a translation

C reads each line of a translation as tokens, with its string literals left out.
-/
namespace TeenyLang

namespace C

/-! ## Tokens outside the literals -/

theorem readLiteral_length {text content rest : List Char}
    (h : readLiteral text = some (content, rest)) : rest.length < text.length := by
  fun_induction readLiteral text generalizing content rest with
  | case1 | case3 | case4 => cases h
  | case2 rest' =>
    cases h
    simp
  | case5 e rest' ih =>
    obtain ⟨d, _, h⟩ := Option.bind_eq_some_iff.1 h
    obtain ⟨⟨_, _⟩, hread, heq⟩ := Option.map_eq_some_iff.1 h
    cases heq
    have hshorter := ih hread
    simp only [List.length_cons] at hshorter ⊢
    omega
  | case6 c rest' _ _ _ _ ih =>
    obtain ⟨⟨_, _⟩, hread, heq⟩ := Option.map_eq_some_iff.1 h
    cases heq
    have hshorter := ih hread
    simp only [List.length_cons] at hshorter ⊢
    omega

/-- A text with a space in the place of each of its string literals. -/
def outside (text : List Char) : Option (List Char) :=
  match text with
  | [] => some []
  | c :: rest =>
    if c = '"' then
      match _read : readLiteral rest with
      | none => none
      | some (_, after) => (outside after).map (' ' :: ·)
    else (outside rest).map (c :: ·)
termination_by text.length
decreasing_by
  · have := readLiteral_length _read
    simp only [List.length_cons]
    omega
  · simp

def lineTokens (line : List Char) : Option (List CToken) :=
  (outside line).bind tokens

theorem outside_append {before : List Char} (h : '"' ∉ before) (rest : List Char) :
    outside (before ++ rest) = (outside rest).map (before ++ ·) := by
  induction before with
  | nil => simp
  | cons c before ih =>
    obtain ⟨hc, hbefore⟩ := List.ne_and_not_mem_of_not_mem_cons h
    rw [List.cons_append, outside, if_neg hc.symm, ih hbefore, Option.map_map]
    rfl

theorem outside_eq_self {text : List Char} (h : '"' ∉ text) : outside text = some text := by
  have hwhole := outside_append h []
  rwa [List.append_nil, outside, Option.map_some, List.append_nil] at hwhole

theorem outside_literal {before inside content after : List Char} (hbefore : '"' ∉ before)
    (hread : readLiteral inside = some (content, after)) (hafter : '"' ∉ after) :
    outside (before ++ '"' :: inside) = some (before ++ ' ' :: after) := by
  have hliteral : outside ('"' :: inside) = some (' ' :: after) := by
    rw [outside, if_pos rfl]
    split
    · next hnone =>
      rw [hread] at hnone
      cases hnone
    · next hsome =>
      rw [hread] at hsome
      cases hsome
      rw [outside_eq_self hafter]
      rfl
  rw [outside_append hbefore, hliteral, Option.map_some]

/-! ## Breaks -/

/-- The characters that end every token before them. -/
def breaks : List Char :=
  [' ', '(', ')', ';', ',', '\x7b', '\x7d']

theorem break_apart : ∀ c ∈ breaks, isNameChar c = false ∧ c.isDigit = false ∧
    c ∉ ['.', '+', '-'] ∧ ∀ p ∈ punctuators, c ∉ p.tail :=
  List.all_iff_forall_prop.1 (by decide)

theorem numberRun_break {c : Char} (hc : c ∈ breaks) (afterExponent : Bool)
    (text rest : List Char) :
    numberRun afterExponent (text ++ c :: rest) = numberRun afterExponent text := by
  obtain ⟨hname, _, hother, _⟩ := break_apart c hc
  simp only [List.mem_cons, List.not_mem_nil, or_false, not_or] at hother
  induction text generalizing afterExponent with
  | nil => simp [numberRun, hname, hother]
  | cons d text ih =>
    rw [List.cons_append, numberRun, numberRun, ih]

theorem readToken_break {c : Char} (hc : c ∈ breaks) (d : Char) (text rest : List Char) :
    readToken (d :: text ++ c :: rest) = readToken (d :: text) := by
  obtain ⟨hname, hdigit, _, hpunctuator⟩ := break_apart c hc
  have htake : (d :: text ++ c :: rest).takeWhile isNameChar =
      (d :: text).takeWhile isNameChar := by
    rw [List.takeWhile_append]
    split
    · next hall =>
      rw [List.takeWhile_cons_of_neg (by simp [hname]), List.append_nil,
        (List.takeWhile_prefix _).eq_of_length hall]
    · rfl
  have hhead : (text ++ c :: rest).head?.any Char.isDigit = text.head?.any Char.isDigit := by
    cases text with
    | nil => exact hdigit
    | cons => rfl
  have hfind : punctuators.find? (·.isPrefixOf (d :: text ++ c :: rest)) =
      punctuators.find? (·.isPrefixOf (d :: text)) := by
    refine List.find?_congr fun p hp => ?_
    cases p with
    | nil => rfl
    | cons e p =>
      have hp : c ∉ p := hpunctuator _ hp
      rw [List.cons_append, List.isPrefixOf, List.isPrefixOf, isPrefixOf_before hp text rest]
  rw [List.cons_append] at htake hfind ⊢
  rw [readToken, readToken, htake, hhead, hfind, numberRun_break hc]

/-- The tokens before a break are those of the text before it. -/
theorem tokens_break {c : Char} (hc : c ∈ breaks) {text : List Char} {ts : List CToken}
    (h : tokens text = some ts) (rest : List Char) :
    tokens (text ++ c :: rest) = (tokens (c :: rest)).map (ts ++ ·) := by
  fun_induction tokens text generalizing ts with
  | case1 =>
    cases h
    simp
  | case2 d text hspace ih => rw [List.cons_append, tokens, if_pos hspace, ih h]
  | case3 => cases h
  | case4 d text hspace t hread ih =>
    obtain ⟨us, hus, rfl⟩ := Option.map_eq_some_iff.1 h
    obtain ⟨more, hmore⟩ := (longest_of_readToken hread).leads
    have hread' : readToken (t.chars ++ (more ++ c :: rest)) = some t := by
      rw [← List.append_assoc, hmore, readToken_break hc, hread]
    have hfirst : ∀ e ∈ t.chars.head?, isSpace e = false := by
      intro e he
      have hd : (d :: text).head? = some e := by
        rw [← hmore, List.head?_append, Option.mem_def.1 he, Option.some_or]
      cases hd
      simpa using hspace
    rw [← hmore, List.drop_left] at hus ih
    rw [← hmore, List.append_assoc, tokens_of_readToken hread' rfl hfirst, ih hus, Option.map_map]
    rfl

theorem readToken_mark {c : Char} (hc : c ∈ breaks) (hspace : c ≠ ' ') (rest : List Char) :
    readToken (c :: rest) = some (.punctuator [c]) := by
  obtain ⟨hname, hdigit, hother, _⟩ := break_apart c hc
  have halone : ∀ c ∈ breaks, c ≠ ' ' → punctuators.find? (·.isPrefixOf [c]) = some [c] ∧
      ∀ p ∈ punctuators, p.head? = some c → p = [c] :=
    List.all_iff_forall_prop.1 (by decide)
  obtain ⟨hfound, halone⟩ := halone c hc hspace
  have hfind : punctuators.find? (·.isPrefixOf (c :: rest)) = some [c] := by
    rw [← hfound]
    refine List.find?_congr fun p hp => ?_
    cases p with
    | nil => rfl
    | cons d p =>
      by_cases hd : d = c
      · cases halone _ hp (by rw [hd]; rfl)
        rfl
      · rw [List.isPrefixOf, List.isPrefixOf, beq_eq_false_iff_ne.2 hd]
        rfl
  have hstart : isNameStart c = false := by
    by_contra h
    rw [nameChar_of_start (Bool.not_eq_false _ ▸ h)] at hname
    cases hname
  have hpoint : c ≠ '.' := fun h => hother (by simp [h])
  simp [readToken, hstart, hdigit, hpoint, hfind]

/-- A text that ends in a mark is read by itself, whatever follows it. -/
theorem tokens_mark {c : Char} (hc : c ∈ breaks) (hmark : c ≠ ' ') {text : List Char}
    {ts : List CToken} (h : tokens text = some ts) (rest : List Char) :
    tokens (text ++ c :: rest) = (tokens rest).map (ts ++ .punctuator [c] :: ·) := by
  have hspaces : ∀ c ∈ breaks, c ≠ ' ' → isSpace c = false :=
    List.all_iff_forall_prop.1 (by decide)
  have hspace := hspaces c hc hmark
  have hread : tokens ([c] ++ rest) = (tokens rest).map (.punctuator [c] :: ·) :=
    tokens_of_readToken (readToken_mark hc hmark rest) rfl (by simpa using hspace)
  rw [tokens_break hc h, ← List.singleton_append, hread, Option.map_map]
  rfl

def word (text : String) : CToken :=
  .name text.toList

def mark (text : String) : CToken :=
  .punctuator text.toList

theorem readLiteral_append {before : List Char} (h : ∀ c ∈ before, c ∉ ['"', '\n', '\\'])
    (rest : List Char) :
    readLiteral (before ++ rest) = (readLiteral rest).map fun x => (before ++ x.1, x.2) := by
  induction before with
  | nil => simp
  | cons c before ih =>
    obtain ⟨hc, hbefore⟩ := List.forall_mem_cons.1 h
    rw [List.cons_append, readLiteral_cons hc, ih hbefore, Option.map_map]
    rfl

end C

namespace Grammar

open C (word mark)

/-! ## The lines -/

def Line.cTokens : Line → List C.CToken
  | text _ => [word "printf", mark "(", mark ")", mark ";"]
  | value e =>
    [word "printf", mark "(", mark ",", mark "(", word "float", mark ")", mark "("] ++
      ((Expression.tokens e).map cToken ++ [mark ")", mark ")", mark ";"])
  | label name => [cToken name.1, mark ":", mark ";"]
  | jump name => [word "goto", cToken name.1, mark ";"]
  | assign name e => cToken name.1 :: mark "=" :: ((Expression.tokens e).map cToken ++ [mark ";"])
  | guard name =>
    [word "if", mark "(", .number ['0'], mark "==", word "scanf", mark "(", mark ",", mark "&",
      cToken name.1, mark ")", mark ")", mark "\x7b"]
  | zero name => [cToken name.1, mark "=", .number ['0'], mark ";"]
  | skip => [word "scanf", mark "(", mark ")", mark ";"]
  | head form condition =>
    word form.word :: mark "(" ::
      ((Comparison.tokens condition).map cToken ++ [mark ")", mark "\x7b"])
  | close => [mark "\x7d"]

theorem lineTokens_of_noQuote {line : List Char} (h : '"' ∉ line) :
    C.lineTokens line = C.tokens line := by
  rw [C.lineTokens, C.outside_eq_self h, Option.bind_some]

theorem lineTokens_literal {before inside content after : List Char} (hbefore : '"' ∉ before)
    (hread : C.readLiteral inside = some (content, after)) (hafter : '"' ∉ after) :
    C.lineTokens (before ++ '"' :: inside) = C.tokens (before ++ ' ' :: after) := by
  rw [C.lineTokens, C.outside_literal hbefore hread hafter, Option.bind_some]

theorem noQuote_of_code {text : List Char} (h : ∀ c ∈ text, isCodeChar c) : '"' ∉ text :=
  fun hmem => ne_of_codeChar (h _ hmem) (by decide) rfl

theorem noQuote_of_name {text : List Char} (h : ∀ c ∈ text, C.isNameChar c) : '"' ∉ text :=
  noQuote_of_code fun c hc => codeChar_of_nameChar (h c hc)

theorem name_noQuote {name : Leaf [.identifier]} (h : Written name.1) :
    '"' ∉ (Target.name name.1.text).toList :=
  noQuote_of_code fun c hc => codeChar_of_nameChar (name_codeChars h c hc)

theorem Lexes.before {code : String} {ts : List Token} (h : Lexes code ts) {rest : List Char}
    {us : List C.CToken} (hrest : C.tokens rest = some us)
    (hbreak : rest.head?.all fun c => C.breaks.contains c || c = ':') :
    C.tokens (code.toList ++ rest) = some (ts.map cToken ++ us) := by
  have hends : C.Ends rest := by
    intro c hc
    rw [Option.mem_def.1 hc, Option.all_some, Bool.or_eq_true, decide_eq_true_eq] at hbreak
    rcases hbreak with hbreak | rfl
    · obtain ⟨hname, _, hother, _⟩ := C.break_apart c (List.contains_iff_mem.1 hbreak)
      exact ⟨hname, fun hpoint => hother (by simp [hpoint])⟩
    · decide
  rw [h rest hends, hrest, Option.map_some]

theorem lexes_name {name : Leaf [.identifier]} (h : Written name.1) :
    Lexes (Target.name name.1.text) [name.1] :=
  (Primary.lexes (x := .ident name) h).2

/-- A name at the head of a line. -/
theorem lineTokens_name {name : Leaf [.identifier]} (h : Written name.1) {rest : String}
    {us : List C.CToken} (hrest : C.tokens rest.toList = some us) (hquote : '"' ∉ rest.toList)
    (hbreak : rest.toList.head?.all fun c => C.breaks.contains c || c = ':') :
    C.lineTokens (Target.name name.1.text ++ rest).toList = some (cToken name.1 :: us) := by
  rw [String.toList_append, lineTokens_of_noQuote (List.not_mem_append (name_noQuote h) hquote),
    (lexes_name h).before hrest hbreak]
  rfl

theorem tokens_semicolon : C.tokens [';'] = some [mark ";"] := by
  decide +kernel

/-- A line of a word and a name. -/
theorem lineTokens_command {command : List Char} {ts : List C.CToken}
    (h : C.tokens command = some ts) (hquote : '"' ∉ command) {name : String}
    (hname : ∀ c ∈ name.toList, C.isNameChar c) :
    C.lineTokens (command ++ ' ' :: ((Target.name name).toList ++ [';'])) =
      some (ts ++ [.name (Target.name name).toList, mark ";"]) := by
  have hline : '"' ∉ command ++ ' ' :: ((Target.name name).toList ++ [';']) := by
    simp only [Target.name, String.toList_append, List.mem_append, List.mem_cons, not_or]
    exact ⟨hquote, by decide, ⟨by decide, noQuote_of_name hname⟩, by decide⟩
  have hends : C.Ends [';'] := by
    intro c hc
    cases hc
    decide
  rw [lineTokens_of_noQuote hline, C.tokens_break (by decide) h, C.tokens_space,
    tokens_name name hname hends, tokens_semicolon]
  rfl

theorem Line.reads_text {t : Leaf [.string]} (h : Written t.1) (precision : Int) :
    C.lineTokens ((text t).code precision).toList = some (text t).cTokens := by
  have hread : C.lineTokens ("printf(".toList ++ '"' ::
      (Target.stringCharsAfter false t.1.text.toList ++ "\\n\");".toList)) =
        C.tokens ("printf(".toList ++ ' ' :: [')', ';']) :=
    lineTokens_literal (by decide) (readLiteral_line h.literal) (by decide)
  have htokens : C.tokens "printf( );".toList =
      some [word "printf", mark "(", mark ")", mark ";"] := by decide +kernel
  rw [toList_text]
  exact hread.trans htokens

theorem Line.reads_value {e : Expression} (h : ∀ t ∈ Expression.tokens e, Written t)
    (precision : Int) :
    C.lineTokens ((value e).code precision).toList = some (value e).cTokens := by
  have hplain : ∀ c ∈ "%.".toList ++ (toString precision).toList ++ "f".toList,
      c ∉ ['"', '\n', '\\'] := by
    have hspecial : ∀ d ∈ ['"', '\n', '\\'], isCodeChar d = false :=
      List.all_iff_forall_prop.1 (by decide)
    simp only [List.forall_mem_append]
    refine ⟨⟨List.all_iff_forall_prop.1 (by decide), fun c hc hmem => ?_⟩,
      List.all_iff_forall_prop.1 (by decide)⟩
    exact ne_of_codeChar (toString_chars precision c hc) (hspecial c hmem) rfl
  let rest := (Expression.code e).toList ++ "));".toList
  have hend : C.readLiteral ("\\n\", (float)(".toList ++ rest) =
      some (['\n'], ", (float)(".toList ++ rest) := rfl
  have hread := C.readLiteral_append hplain ("\\n\", (float)(".toList ++ rest)
  rw [hend, Option.map_some] at hread
  have hafter : '"' ∉ ", (float)(".toList ++ rest := by
    simp only [List.mem_append, not_or, rest]
    exact ⟨by decide, noQuote_of_code (Expression.codeChars h), by decide⟩
  have hcode : ((value e).code precision).toList = "printf(".toList ++ '"' ::
      (("%.".toList ++ (toString precision).toList ++ "f".toList) ++
        ("\\n\", (float)(".toList ++ rest)) := by
    simp only [code, String.toList_append, List.append_assoc, rest]
    rfl
  have hopening : C.tokens "printf( , (float)".toList = some [word "printf", mark "(", mark ",",
      mark "(", word "float", mark ")"] := by decide +kernel
  have hclosing : C.tokens "));".toList = some [mark ")", mark ")", mark ";"] := by decide +kernel
  rw [hcode, lineTokens_literal (by decide) hread hafter]
  calc C.tokens ("printf(".toList ++ ' ' :: (", (float)(".toList ++ rest))
      = C.tokens ("printf( , (float)".toList ++ '(' :: rest) := rfl
    _ = some (value e).cTokens := by
      rw [C.tokens_mark (by decide) (by decide) hopening,
        (Expression.lexes h).before hclosing (by decide)]
      rfl

theorem Line.reads_guard {name : Leaf [.identifier]} (h : Written name.1) (precision : Int) :
    C.lineTokens ((guard name).code precision).toList = some (guard name).cTokens := by
  let rest := (Target.name name.1.text).toList ++ ")) \x7b".toList
  have hread : C.readLiteral ("%f\", &".toList ++ rest) = some ("%f".toList, ", &".toList ++ rest) :=
    rfl
  have hafter : '"' ∉ ", &".toList ++ rest := by
    simp only [List.mem_append, not_or, rest]
    exact ⟨by decide, name_noQuote h, by decide⟩
  have hcode : ((guard name).code precision).toList = "if (0 == scanf(".toList ++ '"' ::
      ("%f\", &".toList ++ rest) := by
    simp only [code, String.toList_append, List.append_assoc, rest]
    rfl
  have hopening : C.tokens "if (0 == scanf( ,".toList = some [word "if", mark "(", .number ['0'],
      mark "==", word "scanf", mark "(", mark ","] := by decide +kernel
  have hclosing : C.tokens ")) \x7b".toList = some [mark ")", mark ")", mark "\x7b"] := by
    decide +kernel
  have hname : C.tokens (['&'] ++ rest) = (C.tokens rest).map (mark "&" :: ·) := by
    have hrest : rest = 't' :: ('_' :: name.1.text.toList ++ ")) \x7b".toList) := by
      simp [rest, Target.name]
    rw [hrest]
    exact C.tokens_punctuator (.inl rfl) (by decide) (by decide)
  rw [hcode, lineTokens_literal (by decide) hread hafter]
  calc C.tokens ("if (0 == scanf(".toList ++ ' ' :: (", &".toList ++ rest))
      = C.tokens ("if (0 == scanf( ,".toList ++ ' ' :: (['&'] ++ rest)) := rfl
    _ = some (guard name).cTokens := by
      rw [C.tokens_break (by decide) hopening, C.tokens_space, hname,
        (lexes_name h).before hclosing (by decide)]
      rfl

theorem Line.reads_head (form : BlockForm) {condition : Comparison}
    (h : ∀ t ∈ Comparison.tokens condition, Written t) (precision : Int) :
    C.lineTokens ((head form condition).code precision).toList =
      some (head form condition).cTokens := by
  have hopening : C.tokens (form.word.toList ++ [' ']) = some [word form.word] := by
    cases form <;> decide +kernel
  have hclosing : C.tokens ") \x7b".toList = some [mark ")", mark "\x7b"] := by decide +kernel
  have hcode : ((head form condition).code precision).toList = (form.word.toList ++ [' ']) ++
      '(' :: ((Comparison.code condition).toList ++ ") \x7b".toList) := by
    simp only [code, String.toList_append, List.append_assoc]
    rfl
  have hquote : '"' ∉ (form.word.toList ++ [' ']) ++
      '(' :: ((Comparison.code condition).toList ++ ") \x7b".toList) := by
    simp only [List.mem_append, List.mem_cons, not_or]
    exact ⟨⟨by cases form <;> decide, by decide⟩, by decide,
      noQuote_of_code (Comparison.codeChars h), by decide⟩
  rw [hcode, lineTokens_of_noQuote hquote, C.tokens_mark (by decide) (by decide) hopening,
    (Comparison.lexes h).before hclosing (by decide)]
  rfl

theorem Line.reads_assign {name : Leaf [.identifier]} (hname : Written name.1) {e : Expression}
    (h : ∀ t ∈ Expression.tokens e, Written t) (precision : Int) :
    C.lineTokens ((assign name e).code precision).toList = some (assign name e).cTokens := by
  have hcode : ((assign name e).code precision).toList = (Target.name name.1.text).toList ++
      (' ' :: ("=".toList ++ ' ' :: ((Expression.code e).toList ++ [';']))) := by
    simp only [code, String.toList_append, List.append_assoc]
    rfl
  have hquote : '"' ∉ (Target.name name.1.text).toList ++
      (' ' :: ("=".toList ++ ' ' :: ((Expression.code e).toList ++ [';']))) := by
    simp only [List.mem_append, List.mem_cons, not_or]
    exact ⟨name_noQuote hname, by decide, by decide, by decide,
      noQuote_of_code (Expression.codeChars h), by decide⟩
  have hvalue : C.tokens ("=".toList ++ ' ' :: ((Expression.code e).toList ++ [';'])) =
      some (mark "=" :: ((Expression.tokens e).map cToken ++ [mark ";"])) := by
    have hequals := C.tokens_operator .assign ((Expression.code e).toList ++ [';'])
    rw [(Expression.lexes h).before tokens_semicolon (by decide)] at hequals
    exact hequals
  rw [← C.tokens_space] at hvalue
  rw [hcode, lineTokens_of_noQuote hquote, (lexes_name hname).before hvalue rfl]
  rfl

theorem Line.reads {l : Line} (h : ∀ t ∈ l.tokens, Written t) (precision : Int) :
    C.lineTokens (l.code precision).toList = some l.cTokens := by
  cases l with
  | text t => exact reads_text (h _ List.mem_cons_self) precision
  | value e => exact reads_value h precision
  | label name =>
    have hend : C.tokens ":;".toList = some [mark ":", mark ";"] := by decide +kernel
    exact lineTokens_name (h name.1 List.mem_cons_self) hend (by decide) (by decide)
  | zero name =>
    have hend : C.tokens " = 0;".toList = some [mark "=", .number ['0'], mark ";"] := by
      decide +kernel
    exact lineTokens_name (h name.1 List.mem_cons_self) hend (by decide) (by decide)
  | jump name =>
    have hword : C.tokens "goto".toList = some [word "goto"] := by decide +kernel
    have hread := lineTokens_command hword (by decide)
      (Written.name (h name.1 List.mem_cons_self) (List.mem_singleton.1 name.2))
    rw [cTokens, cToken_identifier, code, String.toList_append, String.toList_append,
      List.append_assoc]
    exact hread
  | assign name e =>
    obtain ⟨hname, h⟩ := List.forall_mem_cons.1 h
    exact reads_assign hname h precision
  | guard name => exact reads_guard (h _ List.mem_cons_self) precision
  | skip | close =>
    rw [code, cTokens]
    decide +kernel
  | head form condition => exact reads_head form h precision

end Grammar

end TeenyLang
