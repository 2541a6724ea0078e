import TeenyLang.Proofs.LineNames

set_option autoImplicit false

/-!
# Names and blocks of a translation

A translation declares each of its variables once, before its first statement, and no other. A
jump goes to a label that stands there once, and the braces are nested.
-/
namespace TeenyLang

open Grammar

namespace C

def declaration (v : List Char) : List Char :=
  "float".toList ++ ' ' :: (v ++ [';'])

/-- A line has a variable if it has a name that is not reserved and that is not a label. -/
structure HasVariable (ts : List CToken) (v : List Char) : Prop where
  mem : .name v ∈ ts
  free : v ∉ reserved.map String.toList
  noJump : word "goto" ∉ ts
  noLabel : mark ":" ∉ ts

/-- The rules on the names and the blocks of a C text, given by its lines and the variables that
it may declare. -/
structure WellScoped (targets lines : List (List Char)) : Prop where
  declared : ∀ l ∈ lines, ∀ ts, lineTokens l = some ts → ∀ v, HasVariable ts v →
    lines.count (declaration v) = 1
  declaredFirst : ∃ names body, names ⊆ targets ∧
    lines = "#include <stdio.h>".toList :: "int main(void) \x7b".toList ::
      (names.map declaration ++ body) ∧
    ∀ l ∈ body, ∀ ts, lineTokens l = some ts → ts.head? ≠ some (word "float")
  resolved : ∀ l ∈ lines, ∀ ts, lineTokens l = some ts → word "goto" ∈ ts →
    ∃ v, l = jump v ∧ lines.count (label v) = 1
  labelled : ∀ l ∈ lines, ∀ ts, lineTokens l = some ts → mark ":" ∈ ts →
    ∃ v, l = label v ∧ lines.count l = 1
  nested : ∃ tss, List.Forall₂ (fun l ts => lineTokens l = some ts) lines tss ∧ Nested tss

end C

namespace Grammar

open C (word mark)

/-! ## The text of a program -/

def Program.declarationLines (P : Program) : List (List Char) :=
  (named .target P.uses).eraseDups.map fun name => C.declaration (Target.name name).toList

def Program.statementLines (precision : Int) (P : Program) : List (List Char) :=
  (bodyLines P.statements).map fun l => (l.code precision).toList

def Program.declarationTokens (P : Program) : List (List C.CToken) :=
  (named .target P.uses).eraseDups.map fun name =>
    [word "float", .name (Target.name name).toList, mark ";"]

def Program.tokenLines (P : Program) : List (List C.CToken) :=
  [mark "#", word "include", mark "<", word "stdio", mark ".", word "h", mark ">"] ::
    ([word "int", word "main", mark "(", word "void", mark ")"] ++ [mark "\x7b"]) ::
      (P.declarationTokens ++ ((bodyLines P.statements).map Line.cTokens ++
        [[word "return", .number ['0'], mark ";"]]) ++ [mark "\x7d"] :: [[]])

def openingLines : List (List Char) :=
  ["#include <stdio.h>".toList, "int main(void) \x7b".toList]

def closingLines : List (List Char) :=
  ["return 0;".toList, "\x7d".toList, []]

theorem frame_ordinary (uses : List Use) {l : List Char} (hl : l ∈ openingLines ++ closingLines)
    {ts : List C.CToken} (hts : C.lineTokens l = some ts) :
    ∀ c ∈ ts, OrdinaryOrBrace uses c := by
  have hframe : ∀ l ∈ openingLines ++ closingLines, (C.lineTokens l).all fun ts => ts.all fun c =>
      C.isFixed c || c = mark "\x7b" || c = mark "\x7d" := by decide +kernel
  have hall := hframe l hl
  rw [hts, Option.all_some, List.all_eq_true] at hall
  intro c hc
  have hfixed := hall c hc
  simp only [Bool.or_eq_true, decide_eq_true_eq, or_assoc] at hfixed
  exact hfixed.imp_left .fixed

section

variable {P : Program} (h : ∀ t ∈ P.tokens, Written t) (precision : Int)

include h

theorem Program.lines_split : C.lines (P.code precision) = openingLines ++
    (P.declarationLines ++ (P.statementLines precision ++ closingLines)) := by
  have hdeclaration : ∀ name, ("float " ++ Target.name name ++ ";").toList =
      C.declaration (Target.name name).toList := fun name => by
    rw [String.toList_append, String.toList_append, List.append_assoc]
    rfl
  rw [P.lines_code h precision, Program.lines, List.map_cons, List.map_cons, List.map_append,
    List.map_append, List.map_map, List.map_map, List.cons_append, List.cons_append,
    List.append_assoc, List.append_assoc]
  exact congrArg (_ :: _ :: · ++ _) (List.map_congr_left fun name _ => hdeclaration name)

theorem Program.line_written {l : Line} (hl : l ∈ bodyLines P.statements) :
    ∀ t ∈ l.tokens, Written t :=
  bodyLines_written (fun t ht => h t (List.mem_append_right _ ht)) l hl

theorem Program.lineTokens_declaration {name : String} (hname : name ∈ named .target P.uses) :
    C.lineTokens (C.declaration (Target.name name).toList) =
      some [word "float", .name (Target.name name).toList, mark ";"] := by
  have hword : C.tokens "float".toList = some [word "float"] := by decide +kernel
  exact lineTokens_command hword (by decide) (named_chars h hname)

/-- What the lines of a text are. -/
theorem Program.line_cases {l : List Char} (hl : l ∈ C.lines (P.code precision))
    {ts : List C.CToken} (hts : C.lineTokens l = some ts) :
    (∃ name, Line.label name ∈ bodyLines P.statements ∧
      l = C.label (Target.name name.1.text).toList ∧ ts = (Line.label name).cTokens) ∨
    (∃ name, Line.jump name ∈ bodyLines P.statements ∧
      l = C.jump (Target.name name.1.text).toList ∧ ts = (Line.jump name).cTokens) ∨
    ∀ c ∈ ts, OrdinaryOrBrace P.uses c := by
  rw [P.lines_split h precision, List.mem_append, List.mem_append, List.mem_append] at hl
  rcases hl with hl | hl | hl | hl
  · exact .inr (.inr (frame_ordinary P.uses (List.mem_append_left _ hl) hts))
  · obtain ⟨name, hname, rfl⟩ := List.mem_map.1 hl
    rw [List.mem_eraseDups] at hname
    rw [Program.lineTokens_declaration h hname] at hts
    cases hts
    obtain ⟨u, hu, rfl⟩ := List.mem_map.1 hname
    obtain ⟨hmem, hrole⟩ := List.mem_filter.1 hu
    have htarget : Ordinary P.uses (.name (Target.name u.name).toList) :=
      .name hmem (.inr (of_decide_eq_true hrole))
    refine .inr (.inr fun c hc => .inl ?_)
    simp only [List.mem_cons, List.not_mem_nil, or_false] at hc
    rcases hc with rfl | rfl | rfl
    · exact .fixed rfl
    · exact htarget
    · exact .fixed rfl
  · obtain ⟨l, hmem, rfl⟩ := List.mem_map.1 hl
    have hwritten := Program.line_written h hmem
    rw [Line.reads hwritten] at hts
    cases hts
    rcases Line.cTokens_cases hwritten with ⟨name, rfl⟩ | ⟨name, rfl⟩ | hall
    · exact .inl ⟨name, hmem, Line.toList_label name precision, rfl⟩
    · exact .inr (.inl ⟨name, hmem, Line.toList_jump name precision, rfl⟩)
    · exact .inr (.inr fun c hc => (hall c hc).imp_left (.mono (bodyLines_uses hmem)))
  · exact .inr (.inr (frame_ordinary P.uses (List.mem_append_right _ hl) hts))

theorem Program.count_lines {l : List Char} (hl : l ∉ openingLines ++ closingLines) :
    (C.lines (P.code precision)).count l =
      P.declarationLines.count l + (P.statementLines precision).count l := by
  rw [List.mem_append, not_or] at hl
  rw [P.lines_split h precision, List.count_append, List.count_append, List.count_append,
    List.count_eq_zero.2 hl.1, List.count_eq_zero.2 hl.2, Nat.zero_add, Nat.add_zero]

theorem Program.count_declaration {name : String} (hname : name ∈ named .target P.uses) :
    (C.lines (P.code precision)).count (C.declaration (Target.name name).toList) = 1 := by
  have hframe : C.declaration (Target.name name).toList ∉ openingLines ++ closingLines := by
    have hheads : ∀ l ∈ openingLines ++ closingLines, l.head? ≠ some 'f' := by decide
    exact fun hmem => hheads _ hmem rfl
  have hstatements : C.declaration (Target.name name).toList ∉ P.statementLines precision := by
    intro hmem
    obtain ⟨l, hl, hcode⟩ := List.mem_map.1 hmem
    have hread := Line.reads (Program.line_written h hl) precision
    rw [hcode, Program.lineTokens_declaration h hname] at hread
    exact l.head_ne_float (by rw [← Option.some.inj hread]; rfl)
  have hinjective : Function.Injective fun name => C.declaration (Target.name name).toList := by
    intro x y hxy
    exact targetName_injective
      (List.append_cancel_right (List.cons.inj (List.append_cancel_left hxy)).2)
  rw [Program.count_lines h precision hframe, List.count_eq_zero.2 hstatements]
  exact List.count_eq_one_of_mem ((eraseDups_nodup _).map hinjective)
    (List.mem_map_of_mem (List.mem_eraseDups.2 hname))

theorem Program.count_label {name : Leaf [.identifier]} (hname : Written name.1) :
    (C.lines (P.code precision)).count (C.label (Target.name name.1.text).toList) =
      (named .label P.uses).count name.1.text := by
  have hhead : (C.label (Target.name name.1.text).toList).head? = some 't' := by
    simp [C.label, Target.name]
  have hframe : C.label (Target.name name.1.text).toList ∉ openingLines ++ closingLines := by
    have hheads : ∀ l ∈ openingLines ++ closingLines, l.head? ≠ some 't' := by decide
    exact fun hmem => hheads _ hmem hhead
  have hdeclarations : C.label (Target.name name.1.text).toList ∉ P.declarationLines := by
    intro hmem
    obtain ⟨other, _, hother⟩ := List.mem_map.1 hmem
    rw [← hother] at hhead
    have hne : 'f' ≠ 't' := by decide
    exact hne (Option.some.inj hhead)
  rw [Program.count_lines h precision hframe, List.count_eq_zero.2 hdeclarations, Nat.zero_add,
    Program.statementLines, Grammar.count_label (fun l hl => Program.line_written h hl) hname,
    bodyLines_labels fun s _ => s.lines_labels]
  rfl

theorem Program.lines_read :
    List.Forall₂ (fun l ts => C.lineTokens l = some ts) (C.lines (P.code precision))
      P.tokenLines := by
  have hdeclarations : List.Forall₂ (fun l ts => C.lineTokens l = some ts) P.declarationLines
      P.declarationTokens := by
    rw [Program.declarationLines, Program.declarationTokens, List.forall₂_map_left_iff,
      List.forall₂_map_right_iff, List.forall₂_same]
    exact fun name hname => Program.lineTokens_declaration h (List.mem_eraseDups.1 hname)
  have hstatements : List.Forall₂ (fun l ts => C.lineTokens l = some ts)
      (P.statementLines precision) ((bodyLines P.statements).map Line.cTokens) := by
    rw [Program.statementLines, List.forall₂_map_left_iff, List.forall₂_map_right_iff,
      List.forall₂_same]
    exact fun l hl => Line.reads (Program.line_written h hl) precision
  rw [P.lines_split h precision, Program.tokenLines, List.append_assoc, List.append_assoc]
  refine .cons (by decide +kernel) (.cons (by decide +kernel) ?_)
  refine List.rel_append hdeclarations (List.rel_append hstatements ?_)
  exact .cons (by decide +kernel) (.cons (by decide +kernel) (.cons (by decide +kernel) .nil))

theorem Program.nested : C.Nested P.tokenLines := by
  have hbody : C.Nested ((bodyLines P.statements).map Line.cTokens) :=
    nested_flatMap fun s hs => s.nested fun l hl => Program.line_written h
      (bodyLines_eq_flatMap _ ▸ List.mem_flatMap.2 ⟨s, hs, hl⟩)
  have hdeclarations : C.Nested P.declarationTokens := by
    rw [Program.declarationTokens]
    induction (named .target P.uses).eraseDups with
    | nil => exact .nil
    | cons name names ih => exact .plain (by simp [word, mark]) (by simp [word, mark]) ih
  have hreturn : C.Nested [[word "return", .number ['0'], mark ";"]] :=
    .plain (by decide) (by decide) .nil
  exact .plain (by decide) (by decide) (.block (by decide) (by decide) (by decide)
    (hdeclarations.append (hbody.append hreturn)) (.plain (by decide) (by decide) .nil))

theorem Program.declared_first : ∃ names body,
    names ⊆ (named .target P.uses).map (fun name => (Target.name name).toList) ∧
    C.lines (P.code precision) = "#include <stdio.h>".toList :: "int main(void) \x7b".toList ::
      (names.map C.declaration ++ body) ∧
    ∀ l ∈ body, ∀ ts, C.lineTokens l = some ts → ts.head? ≠ some (word "float") := by
  have hnames : P.declarationLines = ((named .target P.uses).eraseDups.map fun name =>
      (Target.name name).toList).map C.declaration := by
    rw [List.map_map]
    rfl
  have hsplit := P.lines_split h precision
  rw [hnames] at hsplit
  refine ⟨_, _, List.map_subset _ fun _ => List.mem_eraseDups.1, hsplit, fun l hl ts hts => ?_⟩
  rcases List.mem_append.1 hl with hl | hl
  · obtain ⟨l, hmem, rfl⟩ := List.mem_map.1 hl
    rw [Line.reads (Program.line_written h hmem)] at hts
    cases hts
    exact l.head_ne_float
  · have hclosing : ∀ l ∈ closingLines, (C.lineTokens l).all fun ts =>
        ts.head? ≠ some (word "float") := by decide +kernel
    have hhead := hclosing l hl
    rw [hts, Option.all_some] at hhead
    exact of_decide_eq_true hhead

/-- A variable in the text is a target of the program. -/
theorem Program.variable_target (hnamed : WellNamed P.uses) {l : List Char}
    (hl : l ∈ C.lines (P.code precision)) {ts : List C.CToken} (hts : C.lineTokens l = some ts)
    {v : List Char} (hv : C.HasVariable ts v) :
    ∃ name ∈ named .target P.uses, v = (Target.name name).toList := by
  rcases Program.line_cases h precision hl hts with
    ⟨name, _, _, rfl⟩ | ⟨name, _, _, rfl⟩ | hall
  · exact absurd (by simp [Line.cTokens]) hv.noLabel
  · exact absurd (by simp [Line.cTokens]) hv.noJump
  · rcases hall _ hv.mem with hordinary | hbrace | hbrace
    · obtain ⟨u, hu, hrole, rfl⟩ := hordinary.use hv.free
      exact ⟨u.name, declared_of_read hnamed.reads hu hrole, rfl⟩
    · cases hbrace
    · cases hbrace

theorem Program.label_once (hnamed : WellNamed P.uses) {name : Leaf [.identifier]}
    (hwritten : Written name.1) (hname : name.1.text ∈ named .label P.uses) :
    (C.lines (P.code precision)).count (C.label (Target.name name.1.text).toList) = 1 := by
  rw [Program.count_label h precision hwritten]
  exact List.count_eq_one_of_mem hnamed.labels hname

omit h in
theorem Program.named_of_line {l : Line} (hl : l ∈ bodyLines P.statements) {role : Role} {t : Token}
    (hu : ⟨role, t⟩ ∈ l.uses) : t.text ∈ named role P.uses :=
  List.mem_map.2 ⟨⟨role, t⟩, List.mem_filter.2 ⟨bodyLines_uses hl hu, by simp⟩, rfl⟩

theorem Program.jump_resolved (hnamed : WellNamed P.uses) {l : List Char}
    (hl : l ∈ C.lines (P.code precision)) {ts : List C.CToken} (hts : C.lineTokens l = some ts)
    (hgoto : word "goto" ∈ ts) :
    ∃ v, l = C.jump v ∧ (C.lines (P.code precision)).count (C.label v) = 1 := by
  rcases Program.line_cases h precision hl hts with
    ⟨name, _, _, rfl⟩ | ⟨name, hmem, rfl, _⟩ | hall
  · simp only [Line.cTokens, cToken_identifier, List.mem_cons, List.not_mem_nil, or_false] at hgoto
    rcases hgoto with hgoto | hgoto | hgoto
    · exact absurd hgoto.symm (targetName_ne (by decide) _)
    · cases hgoto
    · cases hgoto
  · have hwritten : Written name.1 := Program.line_written h hmem _ List.mem_cons_self
    have hjump : name.1.text ∈ named .jump P.uses :=
      Program.named_of_line hmem List.mem_cons_self
    exact ⟨_, rfl, Program.label_once h precision hnamed hwritten (hnamed.jumps _ hjump)⟩
  · exact absurd (by simp) (hall _ hgoto).notMem

theorem Program.label_single (hnamed : WellNamed P.uses) {l : List Char}
    (hl : l ∈ C.lines (P.code precision)) {ts : List C.CToken} (hts : C.lineTokens l = some ts)
    (hcolon : mark ":" ∈ ts) :
    ∃ v, l = C.label v ∧ (C.lines (P.code precision)).count l = 1 := by
  rcases Program.line_cases h precision hl hts with
    ⟨name, hmem, rfl, _⟩ | ⟨name, _, _, rfl⟩ | hall
  · have hwritten : Written name.1 := Program.line_written h hmem _ List.mem_cons_self
    have hlabel : name.1.text ∈ named .label P.uses :=
      Program.named_of_line hmem List.mem_cons_self
    exact ⟨_, rfl, Program.label_once h precision hnamed hwritten hlabel⟩
  · simp [Line.cTokens, cToken_identifier, word, mark] at hcolon
  · exact absurd (by simp) (hall _ hcolon).notMem

end

end Grammar

/-- The C text of an accepted source obeys the rules on names and blocks, and what it declares are
targets of the source. -/
theorem targetText_wellScoped {source file text : String} {precision : Int}
    (haccepted : targetText source file precision = .ok text) {P : Program}
    (htree : Derives source file P) :
    C.WellScoped ((named .target P.uses).map fun name => (Target.name name).toList)
      (C.lines text) := by
  obtain rfl := text_eq_code haccepted htree
  have hwritten := written_of_derives htree
  have hnamed := wellNamed_of_targetText haccepted htree
  refine ⟨?_, ?_, ?_, ?_, _, P.lines_read hwritten precision, P.nested hwritten⟩
  · intro l hl ts hts v hv
    obtain ⟨name, hname, rfl⟩ := Program.variable_target hwritten precision hnamed hl hts hv
    exact Program.count_declaration hwritten precision hname
  · exact Program.declared_first hwritten precision
  · exact fun l hl ts hts => Program.jump_resolved hwritten precision hnamed hl hts
  · exact fun l hl ts hts => Program.label_single hwritten precision hnamed hl hts

section Loop

/-- A label and a variable of the same name, and a string that reads like a declaration. -/
def loopSource : String :=
  "LABEL x\nINPUT x\nWHILE x > 0 REPEAT\nPRINT \"float t_x;\"\nGOTO x\nENDWHILE"

def loopTree : Program where
  leading := []
  statements :=
    let x (line column : Int) : Leaf [.identifier] :=
      .only (tokenIn "loop" .identifier "x" line column)
    let zero : Leaf [.number] := .only (tokenIn "loop" .number "0" 3 11)
    [.label (wordIn "loop" .LABEL 1 1) (x 1 7) (newlineIn "loop" 1 8),
      .input (wordIn "loop" .INPUT 2 1) (x 2 7) (newlineIn "loop" 2 8),
      .block .whileRepeat (wordIn "loop" .WHILE 3 1)
        ⟨⟨⟨⟨⟨none, .ident (x 3 7)⟩, []⟩, []⟩,
          [(⟨tokenIn "loop" (.operator .greater) ">" 3 9, by decide⟩,
            ⟨⟨⟨none, .number zero⟩, []⟩, []⟩)]⟩,
          List.cons_ne_nil _ _⟩
        (wordIn "loop" .REPEAT 3 13) (newlineIn "loop" 3 19)
        [.print (wordIn "loop" .PRINT 4 1)
            (.text (.only (tokenIn "loop" .string "float t_x;" 4 7))) (newlineIn "loop" 4 19),
          .goto (wordIn "loop" .GOTO 5 1) (x 5 6) (newlineIn "loop" 5 7)]
        (wordIn "loop" .ENDWHILE 6 1) (newlineIn "loop" 6 9)]

theorem derives_loopTree : Derives loopSource "loop" loopTree := by
  have hread : (Scanner.start loopSource "loop").readAll.failure = none ∧
      (Scanner.start loopSource "loop").readAll.tokens =
        loopTree.tokens ++ [tokenIn "loop" .endOfInput "" 7 1] := by decide +kernel
  exact ⟨hread.1, _, rfl, hread.2⟩

theorem targetText_loopTree : targetText loopSource "loop" 2 = .ok (loopTree.code 2) :=
  targetText_of_wellNamed derives_loopTree (by decide +kernel) 2

theorem targetText_wellScoped_loop :
    targetText loopSource "loop" 2 = .ok (loopTree.code 2) ∧
      C.WellScoped ["t_x".toList] (C.lines (loopTree.code 2)) := by
  refine ⟨targetText_loopTree, ?_⟩
  have hnames : (named .target loopTree.uses).map (fun name => (Target.name name).toList) =
      ["t_x".toList] := by decide +kernel
  rw [← hnames]
  exact targetText_wellScoped targetText_loopTree derives_loopTree

end Loop

end TeenyLang
