import TeenyLang.Compilation
import TeenyLang.Proofs.SourceTokens

set_option autoImplicit false

/-!
# Accepted programs

A source is compiled exactly if it can be read as tokens, the tokens are those of a derivation
tree and the tree obeys the rules on names; the C text then is the translation of the tree. On
the tokens of a tree a parser fails at most for a name.
-/
namespace TeenyLang

open Grammar

namespace Record

def prepared (r : Record) : Record :=
  { r with
    listing := (r.listing.declare "#include <stdio.h>").declare "int main(void) \x7b" }

def missing (r : Record) : List (String × Location) :=
  r.jumps.filter fun jump => (r.labels.lookup jump.1).isNone

/-- The record with the last lines written, unless a jump goes to no label. -/
def finish (r : Record) : Except Diagnostic Record :=
  if r.missing = [] then .ok (r.write (line "return 0;" ++ line "\x7d"))
  else .error (.missingLabels (r.missing.map Prod.fst) (r.missing.map fun jump => some jump.2))

theorem missing_eq_nil_iff {start r : Record} {uses : List Use} (h : Holds start uses r) :
    r.missing = [] ↔ ∀ name ∈ named .jump uses, name ∈ named .label uses := by
  have hjumps : ∀ name, name ∈ named .jump uses ↔ ∃ jump ∈ r.jumps, jump.1 = name := by
    intro name
    rw [← List.mem_eraseDups, ← h.jumps, List.mem_map]
  have hlabel : ∀ name, (r.labels.lookup name).isNone = false ↔ name ∈ named .label uses := by
    intro name
    rw [← h.labels, ← not_iff_not, ← lookup_eq_none_iff_notMem, Bool.not_eq_false,
      Option.isNone_iff_eq_none]
  simp only [missing, List.filter_eq_nil_iff, Bool.not_eq_true, hlabel, hjumps]
  constructor
  · rintro hall name ⟨jump, hjump, rfl⟩
    exact hall jump hjump
  · intro hall jump hjump
    exact hall jump.1 ⟨jump, hjump, rfl⟩

end Record

namespace Parser

variable {σ : Type} [TokenSupply σ]

def prepared (p : Parser σ) : Parser σ :=
  { p with
    trace := p.trace.push "PROGRAM"
    listing := (p.listing.declare "#include <stdio.h>").declare "int main(void) \x7b" }

theorem program_eq (p : Parser σ) :
    program p = (do
      skipNewlines
      block .endOfInput
      checkLabels
      emitLine "return 0;"
      emitLine "\x7d" : Rule σ Unit) p.prepared :=
  rfl

theorem program_passes {p p' : Parser σ} {a : Unit} (h : program p = .ok a p') :
    ∃ P : Program, Passes p.lookahead P.tokens p'.lookahead ∧ p'.current.kind = .endOfInput := by
  obtain ⟨_, ⟨P, rfl⟩, hpass⟩ :=
    (performs_program p).passes passive_programItems programItems_le h
  rw [program_eq] at h
  obtain ⟨_, q, -, h⟩ := bind_eq_ok h
  obtain ⟨_, r, hblock, h⟩ := bind_eq_ok h
  have hcheck : Still (Act.checkLabels.run : Rule σ Unit) := Act.still (by simp)
  have hfinish : Still (do checkLabels; emitLine "return 0;"; emitLine "\x7d" : Rule σ Unit) :=
    hcheck.bind fun _ => (still_emitLine _).bind fun _ => still_emitLine _
  rw [← hfinish.current_eq h]
  exact ⟨P, hpass, (block_passes hblock).2⟩

omit [TokenSupply σ] in
theorem ends_finish (p : Parser σ) :
    Ends ((do checkLabels; emitLine "return 0;"; emitLine "\x7d" : Rule σ Unit) p) ()
      p.record.finish p.lookahead := by
  by_cases hmissing : p.record.missing = []
  · rw [bind_of_ok (checkLabels_of_none hmissing), Record.finish, if_pos hmissing, ← Record.run_nil]
    refine Ends.bind_write (ends_emitLine _ p) fun q hq _ => ?_
    rw [← hq]
    exact ends_emitLine _ q
  · rw [Record.finish, if_neg hmissing]
    exact ⟨p, bind_of_error (checkLabels_of_some hmissing)⟩

theorem ends_program (P : Program) {p : Parser σ} {l : Lookahead σ}
    (h : Passes p.lookahead P.tokens l) (hl : l.current.kind = .endOfInput) :
    Ends (program p) ()
      ((p.record.prepared.run P.uses (bodyCode p.precision P.statements)).bind Record.finish)
      l := by
  obtain ⟨m, hleading, hbody⟩ := h.split
  have hm := body_head_ne_newline hbody (by simp [hl])
  have hread : Ends ((do skipNewlines; block .endOfInput : Rule σ Unit) p.prepared) ()
      (p.prepared.record.run P.uses (bodyCode p.prepared.precision P.statements)) l := by
    have hskip : Ends (skipNewlines p.prepared) () (p.prepared.record.run [] "") m :=
      ends_skipNewlines P.leading hleading hm
    rw [Record.run_nil, Record.write_empty] at hskip
    refine Ends.bind_silent hskip fun q hq hsame => ?_
    rw [← hq] at hbody
    rw [← hsame]
    exact ends_block endsBody_endOfInput P.statements (fun s _ => ends_statement s) hbody hl
  have hprogram : program p = ((do skipNewlines; block .endOfInput : Rule σ Unit) >>= fun _ =>
      (do checkLabels; emitLine "return 0;"; emitLine "\x7d" : Rule σ Unit)) p.prepared := by
    rw [program_eq, bind_assoc]
  rw [hprogram]
  refine hread.seq fun q hq _ => ?_
  rw [← hq]
  exact ends_finish q

end Parser

def Record.initial (precision : Int) (lines : List String) : Record :=
  (Parser.blankRecord precision lines).prepared

theorem Record.holds_initial (precision : Int) (lines : List String) :
    Holds (initial precision lines) [] (initial precision lines) := by
  refine ⟨rfl, rfl, rfl, ?_, rfl⟩
  simp [initial, prepared, Parser.blankRecord, declarations, concatMap]

def Record.textOf (r : Record) (uses : List Use) (code : String) : Except Diagnostic String :=
  ((r.run uses code).bind finish).map fun r => r.listing.text

/-- Names in order leave a record that can be finished. -/
theorem Record.finish_initial (precision : Int) (lines : List String) {uses : List Use}
    (code : String) (h : WellNamed uses) :
    ∃ r, Holds (initial precision lines) uses r ∧
      ((initial precision lines).run uses code).bind finish =
        .ok ((r.write code).write (line "return 0;" ++ line "\x7d")) := by
  obtain ⟨r, hr⟩ := (useAll_isOk_iff (holds_initial precision lines) uses).2 ⟨h.reads, h.labels⟩
  have hholds := holds_useAll (holds_initial precision lines) hr
  have hmissing : (r.write code).missing = [] := (missing_eq_nil_iff hholds).2 h.jumps
  refine ⟨r, hholds, ?_⟩
  simp only [run, hr, Except.map, Except.bind, finish, hmissing, ↓reduceIte]

theorem Record.textOf_initial (precision : Int) (lines : List String) {uses : List Use}
    (code : String) (h : WellNamed uses) :
    (initial precision lines).textOf uses code =
      .ok (line "#include <stdio.h>" ++ line "int main(void) \x7b" ++
        declarations (named .target uses).eraseDups ++ code ++ line "return 0;" ++
        line "\x7d") := by
  obtain ⟨r, hholds, hfinish⟩ := finish_initial precision lines code h
  have hopening := hholds.opening
  rw [hholds.variableNames] at hopening
  simp only [textOf, hfinish, Except.map]
  simp [write, Target.Listing.code, Target.Listing.text, Target.Listing.declare, hopening,
    hholds.body, initial, prepared, Parser.blankRecord, line, String.append_assoc]

theorem Record.textOf_initial_of_not (precision : Int) (lines : List String) {uses : List Use}
    (code : String) (h : ¬ WellNamed uses) :
    ∃ d, (initial precision lines).textOf uses code = .error d := by
  have hstart := holds_initial precision lines
  cases hr : (initial precision lines).useAll uses with
  | error d => exact ⟨d, by simp [textOf, run, hr, Except.map, Except.bind]⟩
  | ok r =>
    have hnames := (useAll_isOk_iff hstart uses).1 ⟨r, hr⟩
    have hmissing : (r.write code).missing ≠ [] := fun hnil =>
      h ⟨hnames.1, hnames.2, (missing_eq_nil_iff (holds_useAll hstart hr)).1 hnil⟩
    simp only [textOf, run, hr, Except.map, Except.bind, finish, hmissing, ↓reduceIte]
    exact ⟨_, rfl⟩

/-- `P` is a derivation tree of the tokens of a source that is read to its end. -/
def Derives (source file : String) (P : Program) : Prop :=
  (Scanner.start source file).readAll.failure = none ∧
    ∃ last : Token, last.kind = .endOfInput ∧
      (Scanner.start source file).readAll.tokens = P.tokens ++ [last]

theorem Parser.Ends.text {σ : Type} {result : EStateM.Result Diagnostic (Parser σ) Unit}
    {expected : Except Diagnostic Record} {l : Lookahead σ} :
    Ends result () expected l →
      (match result with
        | .ok _ p => Except.ok p.listing.text
        | .error d _ => Except.error d) = expected.map fun r => r.listing.text := by
  intro h
  cases expected with
  | error d =>
    obtain ⟨p, rfl⟩ := h
    rfl
  | ok r =>
    obtain ⟨p, rfl, _, rfl⟩ := h
    rfl

theorem program_of_derives {source file : String} {P : Program} (h : Derives source file P)
    (precision : Int) :
    ∃ p l, Parser.ofSource source file precision = .ok p ∧ ∃ lines,
      Parser.Ends (Parser.program p) () (((Record.initial precision lines).run P.uses
        (bodyCode precision P.statements)).bind Record.finish) l := by
  obtain ⟨hfailure, last, _, htokens⟩ := h
  obtain ⟨ts, last', final, htokens', hlast', hpass⟩ := Scanner.readAll_passes _ hfailure
  obtain ⟨rfl, _⟩ := List.append_inj' (htokens'.symm.trans htokens) rfl
  have hall := hpass Parser.unread Parser.unread
  obtain ⟨m, hfill, hpass⟩ :=
    @Passes.split _ _ _ _ [Parser.unread, Parser.unread] P.tokens hall
  let lines := Text.splitLines (source ++ "\n")
  obtain ⟨p, hp, rfl, hrecord⟩ := Parser.start_of_passes precision lines hfill
  have hends := Parser.ends_program P hpass hlast'
  have hprecision : p.precision = precision := congrArg Record.precision hrecord
  rw [hrecord, hprecision] at hends
  exact ⟨p, _, hp, lines, hends⟩

theorem targetText_of_derives {source file : String} {P : Program} (h : Derives source file P)
    (precision : Int) :
    ∃ lines, targetText source file precision =
      (Record.initial precision lines).textOf P.uses (bodyCode precision P.statements) := by
  obtain ⟨p, l, hp, lines, hends⟩ := program_of_derives h precision
  refine ⟨lines, ?_⟩
  change (Parser.ofSource source file precision).bind _ = _
  rw [hp, Record.textOf, ← hends.text]
  simp only [Except.bind]
  cases Parser.program p <;> rfl

theorem targetText_of_wellNamed {source file : String} {P : Program}
    (h : Derives source file P) (hnames : WellNamed P.uses) (precision : Int) :
    targetText source file precision = .ok (P.code precision) := by
  obtain ⟨lines, htext⟩ := targetText_of_derives h precision
  rw [htext, Record.textOf_initial precision lines _ hnames]
  rfl

theorem targetText_of_not_wellNamed {source file : String} {P : Program}
    (h : Derives source file P) (hnames : ¬ WellNamed P.uses) (precision : Int) :
    ∃ d, targetText source file precision = .error d := by
  obtain ⟨lines, htext⟩ := targetText_of_derives h precision
  obtain ⟨d, hd⟩ := Record.textOf_initial_of_not precision lines
    (bodyCode precision P.statements) hnames
  exact ⟨d, htext.trans hd⟩

theorem wellNamed_of_targetText {source file text : String} {precision : Int}
    (haccepted : targetText source file precision = .ok text) {P : Program}
    (htree : Derives source file P) : WellNamed P.uses := by
  by_contra hnames
  obtain ⟨d, hd⟩ := targetText_of_not_wellNamed htree hnames precision
  exact nomatch haccepted.symm.trans hd

theorem text_eq_code {source file text : String} {precision : Int}
    (haccepted : targetText source file precision = .ok text) {P : Program}
    (htree : Derives source file P) : text = P.code precision :=
  Except.ok.inj (haccepted.symm.trans
    (targetText_of_wellNamed htree (wellNamed_of_targetText haccepted htree) precision))

theorem targetText_eq_ok {source file text : String} {precision : Int}
    (h : targetText source file precision = .ok text) :
    ∃ p q, Parser.ofSource source file precision = .ok p ∧ Parser.program p = .ok () q := by
  change (Parser.ofSource source file precision).bind _ = _ at h
  cases hp : Parser.ofSource source file precision with
  | error d => rw [hp] at h; exact nomatch h
  | ok p =>
    rw [hp] at h
    cases hq : Parser.program p with
    | error d q =>
      simp only [Except.bind, hq] at h
      exact nomatch h
    | ok u q => exact ⟨p, q, rfl, hq⟩

/-- A source that is translated has a derivation tree: the one the rules have walked. -/
theorem derives_of_targetText {source file text : String} {precision : Int}
    (h : targetText source file precision = .ok text) : ∃ P, Derives source file P := by
  obtain ⟨p, q, hp, hq⟩ := targetText_eq_ok h
  obtain ⟨hfill, _⟩ := Parser.start_eq_ok hp
  obtain ⟨P, hpass, hlast⟩ := Parser.program_passes hq
  obtain ⟨hfailure, htokens⟩ :=
    Scanner.readAll_of_passes (hfill.append hpass) hlast P.tokens_ne
  exact ⟨P, hfailure, _, hlast, htokens⟩

/-- A source is translated exactly if it is read to its end, its tokens have a derivation tree,
and the names in the tree are in order: every variable is declared before it is read, no label is
set twice, and every jump goes to a label. Every other source is refused with a diagnostic. -/
theorem targetText_isOk_iff_derives (source file : String) (precision : Int) :
    ((∃ text, targetText source file precision = .ok text) ↔
      ∃ P : Program, Derives source file P ∧ WellNamed P.uses) ∧
    ((∃ d : Diagnostic, targetText source file precision = .error d) ↔
      ¬ ∃ P : Program, Derives source file P ∧ WellNamed P.uses) := by
  have hforth : (∃ text, targetText source file precision = .ok text) →
      ∃ P : Program, Derives source file P ∧ WellNamed P.uses := by
    rintro ⟨text, htext⟩
    obtain ⟨P, hP⟩ := derives_of_targetText htext
    exact ⟨P, hP, wellNamed_of_targetText htext hP⟩
  have hback : (∃ P : Program, Derives source file P ∧ WellNamed P.uses) →
      ∃ text, targetText source file precision = .ok text := by
    rintro ⟨P, hP, hnames⟩
    exact ⟨_, targetText_of_wellNamed hP hnames precision⟩
  refine ⟨⟨hforth, hback⟩, ?_, ?_⟩
  · rintro ⟨d, hd⟩ hderives
    obtain ⟨text, htext⟩ := hback hderives
    exact nomatch htext.symm.trans hd
  · intro hnone
    cases htext : targetText source file precision with
    | error d => exact ⟨d, rfl⟩
    | ok text => exact absurd (hforth ⟨text, htext⟩) hnone

/-- Whichever derivation tree a translated source is given, its translation is that tree's, at
every precision of the printed values. -/
theorem targetText_eq_code {source file text : String} {first : Int}
    (haccepted : targetText source file first = .ok text) (P : Program)
    (htree : Derives source file P) (precision : Int) :
    targetText source file precision = .ok (P.code precision) := by
  have hnames := wellNamed_of_targetText haccepted htree
  exact targetText_of_wellNamed htree hnames precision

section Branch

/-- The tree of the four lines `LET n = 010`, `IF n > 0 THEN`, `PRINT -n` and `ENDIF`. -/
def branchTree : Program where
  leading := []
  statements :=
    let number (text : String) (line column : Int) : Expression :=
      ⟨⟨⟨none, .number (.only (tokenIn "branch" .number text line column))⟩, []⟩, []⟩
    let n (line column : Int) : Leaf [.identifier] :=
      .only (tokenIn "branch" .identifier "n" line column)
    [.assign (wordIn "branch" .LET 1 1) (n 1 5)
        (.only (tokenIn "branch" (.operator .assign) "=" 1 7)) (number "010" 1 9)
        (newlineIn "branch" 1 12),
      .block .ifThen (wordIn "branch" .IF 2 1)
        ⟨⟨⟨⟨⟨none, .ident (n 2 4)⟩, []⟩, []⟩,
          [(⟨tokenIn "branch" (.operator .greater) ">" 2 6, by simp⟩, number "0" 2 8)]⟩, by simp⟩
        (wordIn "branch" .THEN 2 10) (newlineIn "branch" 2 14)
        [.print (wordIn "branch" .PRINT 3 1)
          (.value ⟨⟨⟨some ⟨tokenIn "branch" (.operator .minus) "-" 3 7, by simp⟩,
            .ident (n 3 8)⟩, []⟩, []⟩) (newlineIn "branch" 3 9)]
        (wordIn "branch" .ENDIF 4 1) (newlineIn "branch" 4 6)]

theorem derives_branchTree :
    Derives "LET n = 010\nIF n > 0 THEN\nPRINT -n\nENDIF" "branch" branchTree := by
  have hread :
      (Scanner.start "LET n = 010\nIF n > 0 THEN\nPRINT -n\nENDIF" "branch").readAll.failure =
        none ∧
      (Scanner.start "LET n = 010\nIF n > 0 THEN\nPRINT -n\nENDIF" "branch").readAll.tokens =
        branchTree.tokens ++ [tokenIn "branch" .endOfInput "" 5 1] := by decide +kernel
  exact ⟨hread.1, _, rfl, hread.2⟩

theorem targetText_branchTree :
    targetText "LET n = 010\nIF n > 0 THEN\nPRINT -n\nENDIF" "branch" 2 = .ok
      ("#include <stdio.h>\nint main(void) \x7b\nfloat t_n;\nt_n = 10;\n" ++
        "if (t_n > 0) \x7b\nprintf(\"%.2f\\n\", (float)(-t_n));\n\x7d\nreturn 0;\n\x7d\n") := by
  have haccepted := targetText_of_wellNamed derives_branchTree (by decide +kernel) 0
  rw [targetText_eq_code haccepted branchTree derives_branchTree 2]
  decide +kernel

end Branch

end TeenyLang
