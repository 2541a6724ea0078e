import TeenyLang.Proofs.Meaning
import TeenyLang.Proofs.OutputLines
import Mathlib.Data.List.Chain

set_option autoImplicit false

/-!
# Printed strings

What C prints for the line of a string. First the trigraphs of the line are replaced, then the
escapes of the literal give the characters of an array that a null character ends, and then this
array is the format of `printf`. A string comes out as it is unless it has a null character in it,
which cuts off the rest and the newline.
-/
namespace TeenyLang

open Grammar

namespace C

def trigraph? (c : Char) : Option Char :=
  [('=', '#'), ('(', '['), ('/', '\\'), (')', ']'), ('\x27', '^'), ('<', '\x7b'), ('!', '|'),
    ('>', '\x7d'), ('-', '~')].lookup c

def trigraphs : List Char → List Char
  | [] => []
  | '?' :: '?' :: c :: rest =>
    match trigraph? c with
    | some d => d :: trigraphs rest
    | none => '?' :: trigraphs ('?' :: c :: rest)
  | c :: rest => c :: trigraphs rest

/-- What a backslash and the given character stand for; codes in digits are not read. -/
def escape? (c : Char) : Option Char :=
  [('\x27', '\x27'), ('"', '"'), ('?', '?'), ('\\', '\\'), ('a', '\x07'), ('b', '\x08'),
    ('f', '\x0c'), ('n', '\n'), ('r', '\r'), ('t', '\t'), ('v', '\x0b')].lookup c

/-- The characters of a literal after its opening quote, and what follows its closing quote. -/
def readLiteral : List Char → Option (List Char × List Char)
  | [] => none
  | '"' :: rest => some ([], rest)
  | '\n' :: _ => none
  | ['\\'] => none
  | '\\' :: e :: rest =>
    (escape? e).bind fun d => (readLiteral rest).map fun x => (d :: x.1, x.2)
  | c :: rest => (readLiteral rest).map fun x => (c :: x.1, x.2)

/-- The format in a line that calls `printf` with a literal and nothing else. -/
def printfFormat (line : List Char) : Option (List Char) :=
  if "printf(\"".toList.isPrefixOf line then
    match readLiteral (line.drop 8) with
    | some (format, [')', ';']) => some format
    | _ => none
  else none

/-- What `printf` prints for an array as its format, up to the first null character. There is no
answer if there is none, or if a conversion comes first. -/
def printfOutput : List Char → Option (List Char)
  | [] => none
  | c :: rest =>
    if c = '\x00' then some []
    else if c = '%' then none
    else (printfOutput rest).map (c :: ·)

def printed (line : List Char) : Option (List Char) :=
  (printfFormat (trigraphs line)).bind fun format => printfOutput (format ++ ['\x00'])

/-! ## The three stages -/

def MarksApart (text : List Char) : Prop :=
  text.IsChain fun a b => ¬ (a = '?' ∧ b = '?')

theorem trigraphs_of_marksApart {text : List Char} (h : MarksApart text) :
    trigraphs text = text := by
  fun_induction trigraphs text with
  | case1 => rfl
  | case2 | case3 => exact absurd ⟨rfl, rfl⟩ (List.isChain_cons_cons.1 h).1
  | case4 c rest _ ih => rw [ih h.of_cons]

theorem readLiteral_cons {c : Char} (hc : c ∉ ['"', '\n', '\\']) (rest : List Char) :
    readLiteral (c :: rest) = (readLiteral rest).map fun x => (c :: x.1, x.2) := by
  simp only [List.mem_cons, List.not_mem_nil, or_false, not_or] at hc
  obtain ⟨hquote, hnewline, hbackslash⟩ := hc
  rw [readLiteral.eq_def]
  split <;> simp_all

theorem printfOutput_append {format : List Char} (h : '%' ∉ format) :
    printfOutput (format ++ ['\x00']) = some (format.takeWhile (· ≠ '\x00')) := by
  induction format with
  | nil => rfl
  | cons c format ih =>
    obtain ⟨hc, hformat⟩ := List.ne_and_not_mem_of_not_mem_cons h
    rw [List.cons_append, printfOutput]
    by_cases hnull : c = '\x00'
    · simp [hnull]
    · simp [hnull, hc.symm, ih hformat]

end C

namespace Grammar

theorem marksApart_stringCharsAfter (afterMark : Bool) (text : List Char) :
    C.MarksApart (Target.stringCharsAfter afterMark text) ∧
      (afterMark = true → (Target.stringCharsAfter afterMark text).head? ≠ some '?') := by
  induction text generalizing afterMark with
  | nil => exact ⟨List.isChain_nil, by simp [Target.stringCharsAfter]⟩
  | cons c text ih =>
    obtain ⟨hapart, hhead⟩ := ih (c = '?')
    rcases stringCharsAfter_step afterMark c text with ⟨-, rfl, hform⟩ | ⟨hmark, hform⟩ <;>
      rw [hform]
    · refine ⟨List.isChain_cons_cons.2 ⟨by decide, List.isChain_cons.2 ⟨?_, hapart⟩⟩, by simp⟩
      rintro d hd ⟨_, rfl⟩
      exact hhead rfl hd
    · refine ⟨List.isChain_cons.2 ⟨?_, hapart⟩, fun hafter hc => ?_⟩
      · rintro d hd ⟨rfl, rfl⟩
        exact hhead rfl hd
      · exact hmark hafter (Option.some.inj hc)

theorem readLiteral_stringCharsAfter (afterMark : Bool) {text : List Char}
    (h : ∀ c ∈ text, c ∉ ['"', '\n', '\\']) (rest : List Char) :
    C.readLiteral (Target.stringCharsAfter afterMark text ++ rest) =
      (C.readLiteral rest).map fun x => (text ++ x.1, x.2) := by
  induction text generalizing afterMark with
  | nil => simp [Target.stringCharsAfter]
  | cons c text ih =>
    obtain ⟨hc, htext⟩ := List.forall_mem_cons.1 h
    rcases stringCharsAfter_step afterMark c text with ⟨-, rfl, hform⟩ | ⟨-, hform⟩ <;> rw [hform]
    · have hescape : C.escape? '?' = some '?' := rfl
      rw [List.cons_append, List.cons_append, C.readLiteral, ih _ htext, hescape,
        Option.bind_some, Option.map_map]
      rfl
    · rw [List.cons_append, C.readLiteral_cons hc, ih _ htext, Option.map_map]
      rfl

theorem marksApart_line (text : List Char) :
    C.MarksApart ("printf(\"".toList ++ (Target.stringCharsAfter false text ++
      "\\n\");".toList)) := by
  refine List.isChain_append.2 ⟨by decide, List.isChain_append.2
    ⟨(marksApart_stringCharsAfter false text).1, by decide, ?_⟩, ?_⟩
  · rintro x _ y hy ⟨_, rfl⟩
    exact absurd hy (by decide)
  · rintro x hx y _ ⟨rfl, _⟩
    exact absurd hx (by decide)

theorem readLiteral_line {text : List Char} (h : ∀ c ∈ text, c ∉ ['"', '\n', '\\']) :
    C.readLiteral (Target.stringCharsAfter false text ++ "\\n\");".toList) =
      some (text ++ ['\n'], [')', ';']) := by
  have hend : C.readLiteral "\\n\");".toList = some (['\n'], [')', ';']) := by decide
  rw [readLiteral_stringCharsAfter false h, hend, Option.map_some]

theorem printfFormat_line {text : List Char} (h : ∀ c ∈ text, c ∉ ['"', '\n', '\\']) :
    C.printfFormat ("printf(\"".toList ++ (Target.stringCharsAfter false text ++
      "\\n\");".toList)) = some (text ++ ['\n']) := by
  rw [C.printfFormat, if_pos (List.isPrefixOf_iff_prefix.2 (List.prefix_append _ _)),
    List.drop_left' (by decide), readLiteral_line h]
  rfl

theorem Line.toList_text (t : Leaf [.string]) (precision : Int) :
    ((text t).code precision).toList = "printf(\"".toList ++
      (Target.stringCharsAfter false t.1.text.toList ++ "\\n\");".toList) := by
  simp only [code, Target.string, Target.stringChars, String.toList_append, String.toList_ofList,
    List.append_assoc]

theorem Written.literal {t : Leaf [.string]} (h : Written t.1) :
    ∀ c ∈ t.1.text.toList, c ∉ ['"', '\n', '\\'] := by
  have hsubset : ['"', '\n', '\\'] ⊆ ['"', '\r', '\n', '\t', '\\', '%'] := by decide
  exact fun c hc hmem => h.string c hc (hsubset hmem)

/-- The line of a string prints the string and a newline, up to the first null character. -/
theorem printed_text {t : Leaf [.string]} (h : Written t.1) (precision : Int) :
    C.printed ((Line.text t).code precision).toList =
      some ((t.1.text.toList ++ ['\n']).takeWhile (· ≠ '\x00')) := by
  have hpercent : '%' ∉ t.1.text.toList ++ ['\n'] := by
    intro hmem
    rcases List.mem_append.1 hmem with hmem | hmem
    · exact h.string _ hmem (by decide)
    · exact absurd hmem (by decide)
  rw [Line.toList_text, C.printed, C.trigraphs_of_marksApart (marksApart_line _),
    printfFormat_line h.literal, Option.bind_some, C.printfOutput_append hpercent]

/-! ## The strings of a program -/

mutual

def Statement.texts : Statement → List (Leaf [.string])
  | .print _ (.text t) _ => [t]
  | .block _ _ _ _ _ body _ _ => bodyTexts body
  | _ => []

def bodyTexts : List Statement → List (Leaf [.string])
  | [] => []
  | s :: rest => s.texts ++ bodyTexts rest

end

def Program.texts (P : Program) : List (Leaf [.string]) :=
  bodyTexts P.statements

theorem bodyTexts_sublist {body : List Statement}
    (h : ∀ s ∈ body, (s.texts.map Line.text).Sublist s.lines) :
    ((bodyTexts body).map Line.text).Sublist (bodyLines body) := by
  induction body with
  | nil => exact List.nil_sublist _
  | cons s rest ih =>
    obtain ⟨hs, hrest⟩ := List.forall_mem_cons.1 h
    rw [bodyTexts, bodyLines, List.map_append]
    exact hs.append (ih hrest)

/-- The strings of a statement are lines of it, in the same order. -/
theorem Statement.texts_sublist (s : Statement) :
    (s.texts.map Line.text).Sublist s.lines := by
  induction s using Statement.induction with
  | print word printed ending =>
    cases printed with
    | text t => exact List.Sublist.refl _
    | value e => exact List.nil_sublist _
  | label | goto | assign | input => exact List.nil_sublist _
  | block form word condition follower gap body closer ending ih =>
    rw [Statement.texts, Statement.lines]
    exact .cons _ ((bodyTexts_sublist ih).trans (List.sublist_append_left _ _))

theorem Program.texts_sublist (P : Program) :
    (P.texts.map Line.text).Sublist (bodyLines P.statements) :=
  bodyTexts_sublist fun s _ => s.texts_sublist

theorem Program.texts_written {P : Program} (h : ∀ t ∈ P.tokens, Written t) :
    ∀ t ∈ P.texts, Written t.1 := by
  intro t ht
  have hline : Line.text t ∈ bodyLines P.statements :=
    P.texts_sublist.subset (List.mem_map_of_mem ht)
  have hbody : ∀ u ∈ bodyTokens P.statements, Written u := fun u hu =>
    h u (List.mem_append_right _ hu)
  exact bodyLines_written hbody _ hline t.1 List.mem_cons_self

theorem Program.texts_lines {P : Program} (h : ∀ t ∈ P.tokens, Written t) (precision : Int) :
    (P.texts.map fun t => ((Line.text t).code precision).toList).Sublist
      (C.lines (P.code precision)) := by
  have hbody : (P.texts.map fun t => (Line.text t).code precision).Sublist
      ((bodyLines P.statements).map (Line.code precision)) := by
    have hmap := P.texts_sublist.map (Line.code precision)
    rwa [List.map_map] at hmap
  have hall : (P.texts.map fun t => (Line.text t).code precision).Sublist (P.lines precision) :=
    .cons _ (.cons _ ((hbody.trans (List.sublist_append_left _ _)).trans
      (List.sublist_append_right _ _)))
  rw [P.lines_code h precision]
  have hchars := hall.map String.toList
  rw [List.map_map] at hchars
  exact hchars.trans (List.sublist_append_left _ _)

end Grammar

/-- The strings that a program prints stand in its text one line each. Each line prints its string
and a newline up to the first null character, so all of it exactly if there is none. -/
theorem texts_printed {source file text : String} {precision : Int}
    (haccepted : targetText source file precision = .ok text) {P : Program}
    (htree : Derives source file P) :
    (P.texts.map fun t => ((Line.text t).code precision).toList).Sublist (C.lines text) ∧
      ∀ t ∈ P.texts, ∃ output, C.printed ((Line.text t).code precision).toList = some output ∧
        output = (t.1.text.toList ++ ['\n']).takeWhile (· ≠ '\x00') ∧
        (output = t.1.text.toList ++ ['\n'] ↔ '\x00' ∉ t.1.text.toList) := by
  obtain rfl := text_eq_code haccepted htree
  have hwritten := written_of_derives htree
  refine ⟨P.texts_lines hwritten precision, fun t ht => ?_⟩
  refine ⟨_, printed_text (P.texts_written hwritten t ht) precision, rfl, ?_⟩
  rw [List.takeWhile_eq_self_iff, List.forall_mem_append]
  constructor
  · intro h hnull
    exact absurd (h.1 _ hnull) (by decide)
  · intro hnull
    refine ⟨fun c hc => ?_, List.all_eq_true.1 (by decide)⟩
    have hc : c ≠ '\x00' := by
      rintro rfl
      exact hnull hc
    simpa using hc

section Null

def questionText : Leaf [.string] :=
  .only (tokenIn "null" .string "what??!" 1 7)

def nullText : Leaf [.string] :=
  .only (tokenIn "null" .string "a\x00b" 2 7)

def nullTree : Program where
  leading := []
  statements :=
    [.print (wordIn "null" .PRINT 1 1) (.text questionText) (newlineIn "null" 1 16),
      .print (wordIn "null" .PRINT 2 1) (.text nullText) (newlineIn "null" 2 12)]

theorem derives_nullTree : Derives "PRINT \"what??!\"\nPRINT \"a\x00b\"" "null" nullTree := by
  have hread :
      (Scanner.start "PRINT \"what??!\"\nPRINT \"a\x00b\"" "null").readAll.failure = none ∧
      (Scanner.start "PRINT \"what??!\"\nPRINT \"a\x00b\"" "null").readAll.tokens =
        nullTree.tokens ++ [tokenIn "null" .endOfInput "" 3 1] := by decide +kernel
  exact ⟨hread.1, _, rfl, hread.2⟩

theorem targetText_nullTree :
    targetText "PRINT \"what??!\"\nPRINT \"a\x00b\"" "null" 2 = .ok (nullTree.code 2) :=
  targetText_of_wellNamed derives_nullTree (by decide +kernel) 2

theorem texts_printed_nullTree :
    C.printed ((Line.text questionText).code 2).toList = some "what??!\n".toList ∧
      C.printed ((Line.text nullText).code 2).toList = some "a".toList := by
  have hprinted := (texts_printed targetText_nullTree derives_nullTree).2
  obtain ⟨_, hquestion, rfl, _⟩ := hprinted questionText (List.mem_cons_self ..)
  obtain ⟨_, hnull, rfl, _⟩ := hprinted nullText (List.mem_cons_of_mem _ List.mem_cons_self)
  exact ⟨hquestion, hnull⟩

/-- A null character may stand in a string, and then neither what follows it nor the newline is
printed. -/
theorem null_cuts_text :
    targetText "PRINT \"what??!\"\nPRINT \"a\x00b\"" "null" 2 = .ok (nullTree.code 2) ∧
      Derives "PRINT \"what??!\"\nPRINT \"a\x00b\"" "null" nullTree ∧
      nullText ∈ nullTree.texts ∧
      ((Line.text nullText).code 2).toList ∈ C.lines (nullTree.code 2) ∧
      C.printed ((Line.text nullText).code 2).toList ≠ some (nullText.1.text.toList ++ ['\n']) :=
  ⟨targetText_nullTree, derives_nullTree, List.mem_cons_of_mem _ List.mem_cons_self,
    by decide +kernel, by decide +kernel⟩

end Null

end TeenyLang
