import TeenyLang.CommandLine.Run
import TeenyLang.Proofs.FileSystem

set_option autoImplicit false

/-!
# What a command leaves behind

A call passes its checks exactly if its words are `Valid`. If it then asks for a C text, it ends in
one of four ways (`Ends`): the text is written and all is said, or it is written and then the stream
refuses a line, or the source is refused, or something else stops the run. Only in the first two a
file changes, and the exit code tells the four apart.
-/
namespace TeenyLang.CommandLine

open FileAccess (statusIn)
open Build (IsSource Wrote)

variable {S : Type} {files files' : S} {words : Words}

/-! ## Lines and streams -/

/-- The stream takes the lines one after the other, having taken a text before. -/
def Console.Takes (console : Console) (taken : String) : List String → Prop
  | [] => True
  | line :: rest =>
    console.objection? taken (echoed line) = none ∧ console.Takes (taken ++ echoed line) rest

theorem Console.takes_cons (console : Console) (taken line : String) (rest : List String) :
    console.Takes taken (line :: rest) ↔
      console.objection? taken (echoed line) = none ∧
        console.Takes (taken ++ echoed line) rest := Iff.rfl

theorem Console.takes_append (console : Console) (taken : String) (first second : List String) :
    console.Takes taken (first ++ second) ↔
      console.Takes taken first ∧
        console.Takes (taken ++ String.join (first.map echoed)) second := by
  induction first generalizing taken with
  | nil => simp [Takes]
  | cons line first ih =>
    rw [List.cons_append, takes_cons, takes_cons, ih, List.map_cons, String.join_cons,
      String.append_assoc, and_assoc]

theorem Console.takes_of_silent {console : Console}
    (h : ∀ taken line, console.objection? taken line = none) (taken : String)
    (lines : List String) : console.Takes taken lines := by
  induction lines generalizing taken with
  | nil => trivial
  | cons line lines ih => exact ⟨h taken (echoed line), ih _⟩

/-- Lines that the stream takes are all told, and else one of them is objected to. -/
theorem Report.tell_cases (report : Report) (console : Console) (lines : List String) :
    (console.Takes report.stdout lines ∧ ∃ told, report.tell console lines = (told, none) ∧
      told.exitCode = report.exitCode ∧
      told.stdout = report.stdout ++ String.join (lines.map echoed)) ∨
    ¬console.Takes report.stdout lines ∧
      ∃ told objection, report.tell console lines = (told, some objection) := by
  induction lines generalizing report with
  | nil => exact .inl ⟨trivial, report, rfl, rfl, by simp⟩
  | cons line lines ih =>
    rw [Console.takes_cons, tell]
    cases hobjection : console.objection? report.stdout (echoed line) with
    | some objection => exact .inr ⟨by simp, report, objection, rfl⟩
    | none =>
      simp only [true_and, List.map_cons, String.join_cons, ← String.append_assoc]
      exact ih { report with stdout := report.stdout ++ echoed line }

/-- How a run that is to write a C text ends, where `written files' lines` says that it gets to write,
which leads to `files'`, and then has `lines` to tell to a stream that has taken a text before. -/
inductive Ends (console : Console) (taken : String) (files : S) (refused : Prop)
    (written : S → List String → Prop) : Report × S → Prop
  | done {report : Report} {files' : S} {lines : List String} :
      report.exitCode = 0 → ¬refused → written files' lines → console.Takes taken lines →
        Ends console taken files refused written (report, files')
  | unheard {report : Report} {files' : S} {lines : List String} :
      report.exitCode = 3 → ¬refused → written files' lines → ¬console.Takes taken lines →
        Ends console taken files refused written (report, files')
  | refused {report : Report} :
      report.exitCode = 1 → refused → (∀ files' lines, ¬written files' lines) →
        Ends console taken files refused written (report, files)
  | stopped {report : Report} :
      1 < report.exitCode → ¬refused → (∀ files' lines, ¬written files' lines) →
        Ends console taken files refused written (report, files)

namespace Ends

variable {console : Console} {taken : String} {refused refused' : Prop}
  {written written' : S → List String → Prop} {report : Report}

/-- Either nothing is written and the run fails, or the exit code says whether all was told. -/
theorem written_or_unchanged (h : Ends console taken files refused written (report, files')) :
    ((∀ files' lines, ¬written files' lines) ∧ report.exitCode ≠ 0 ∧ files' = files) ∨
      ∃ lines, written files' lines ∧
        (report.exitCode = 0 ∧ console.Takes taken lines ∨
          report.exitCode = 3 ∧ ¬console.Takes taken lines) := by
  cases h with
  | done hzero _ hwritten htakes => exact .inr ⟨_, hwritten, .inl ⟨hzero, htakes⟩⟩
  | unheard hthree _ hwritten htakes => exact .inr ⟨_, hwritten, .inr ⟨hthree, htakes⟩⟩
  | refused hone _ hnone => exact .inl ⟨hnone, by omega, rfl⟩
  | stopped hmore _ hnone => exact .inl ⟨hnone, by omega, rfl⟩

/-- Lines that were told before may be counted in. -/
theorem prepend {before : List String} {result : Report × S}
    (h : Ends console (taken ++ String.join (before.map echoed)) files refused written result)
    (hbefore : console.Takes taken before) (hrefused : refused ↔ refused')
    (hwritten : ∀ files' lines, written' files' lines ↔
      ∃ later, written files' later ∧ lines = before ++ later) :
    Ends console taken files refused' written' result := by
  rw [hrefused] at h
  have htakes (later : List String) : console.Takes taken (before ++ later) ↔
      console.Takes (taken ++ String.join (before.map echoed)) later := by
    rw [console.takes_append, and_iff_right hbefore]
  cases h with
  | done hzero hnot hdone hheard =>
    exact .done hzero hnot ((hwritten _ _).2 ⟨_, hdone, rfl⟩) ((htakes _).2 hheard)
  | unheard hthree hnot hdone hheard =>
    exact .unheard hthree hnot ((hwritten _ _).2 ⟨_, hdone, rfl⟩) (mt (htakes _).1 hheard)
  | refused hone h hnone =>
    refine .refused hone h fun files' lines hdone => ?_
    obtain ⟨later, hlater, -⟩ := (hwritten _ _).1 hdone
    exact hnone _ _ hlater
  | stopped hmore hnot hnone =>
    refine .stopped hmore hnot fun files' lines hdone => ?_
    obtain ⟨later, hlater, -⟩ := (hwritten _ _).1 hdone
    exact hnone _ _ hlater

end Ends

variable [FileSystem S]

/-! ## The checks -/

namespace Words

def Fits (files : S) (words : Words) : Flag → Prop
  | .precision => ∀ text, words.lastValue? .precision = some text →
      ∃ precision, Text.integer? text = some precision ∧ 0 ≤ precision
  | .output => ∀ word, words.lastValue? .output = some word →
      statusIn files word ≠ .directory ∧ statusIn files word ≠ .unreadable
  | _ => True

/-- The words ask to read the file `input`, and there is nothing wrong with them. -/
structure Valid (files : S) (words : Words) (input : String) : Prop where
  noHelp : words.has .help = false
  noVersion : words.has .version = false
  precision : words.Fits files .precision
  output : words.Fits files .output
  arguments : words.arguments = [input]
  input : statusIn files input = .file

theorem mem_flags_iff (flag : Flag) : flag ∈ words.flags ↔ words.has flag = true := by
  simp [flags, has]

theorem lastValue?_of_notMem {flag : Flag} (h : flag ∉ words.flags) : words.lastValue? flag = none := by
  have hnone : words.options.reverse.lookup flag = none := by
    refine List.lookup_eq_none_iff.2 fun given hgiven => ?_
    rw [List.mem_reverse] at hgiven
    simp only [flags, List.mem_eraseDups, List.mem_map, not_exists, not_and] at h
    exact bne_iff_ne.2 (Ne.symm (h given hgiven))
  rw [lastValue?, hnone]
  rfl

theorem fits_flags_iff :
    (∀ flag ∈ words.flags, words.Fits files flag) ↔
      words.Fits files .precision ∧ words.Fits files .output := by
  constructor
  · intro h
    constructor
    · by_cases hmem : Flag.precision ∈ words.flags
      · exact h _ hmem
      · simp [Fits, lastValue?_of_notMem hmem]
    · by_cases hmem : Flag.output ∈ words.flags
      · exact h _ hmem
      · simp [Fits, lastValue?_of_notMem hmem]
  · rintro ⟨hprecision, houtput⟩ flag -
    cases flag with
    | precision => exact hprecision
    | output => exact houtput
    | tokens | verbose | version | help => trivial

end Words

theorem information?_eq_none_iff :
    information? words = none ↔ words.has .help = false ∧ words.has .version = false := by
  simp only [information?, Option.map_eq_none_iff, List.find?_eq_none, Words.mem_flags_iff,
    ← Bool.not_eq_true]
  constructor
  · intro h
    exact ⟨fun hhelp => h .help hhelp rfl, fun hversion => h .version hversion rfl⟩
  · rintro ⟨hhelp, hversion⟩ flag hflag hasked
    cases flag with
    | help => exact hhelp hflag
    | version => exact hversion hflag
    | output | precision | tokens | verbose => cases hasked

theorem valueFault?_run (files : S) (words : Words) (flag : Flag) :
    ∃ fault?, (valueFault? words flag : StateM S (Option UsageFault)).run files = (fault?, files) ∧
      (fault? = none ↔ words.Fits files flag) := by
  unfold valueFault?
  cases flag with
  | tokens | verbose | version | help => exact ⟨none, rfl, by simp [Words.Fits]⟩
  | precision =>
    cases htext : words.lastValue? .precision with
    | none => exact ⟨none, rfl, by simp [Words.Fits, htext]⟩
    | some text =>
      simp only [precisionOf, Words.Fits, htext, Option.some.injEq, forall_eq']
      cases hinteger : Text.integer? text with
      | none => exact ⟨_, rfl, by simp⟩
      | some precision =>
        by_cases hneg : precision < 0
        · simp only [hneg, if_true]
          exact ⟨_, rfl, by simp; omega⟩
        · simp only [hneg, if_false]
          exact ⟨_, rfl, by simp; omega⟩
  | output =>
    cases hword : words.lastValue? .output with
    | none => exact ⟨none, rfl, by simp [Words.Fits, hword]⟩
    | some word =>
      simp only [Words.Fits, hword, Option.some.injEq, forall_eq']
      rw [run_bind_of_run (FileSystem.status_run files word)]
      cases statusIn files word with
      | directory | unreadable => exact ⟨_, rfl, by simp⟩
      | missing | file | unknown => exact ⟨_, rfl, by simp⟩

theorem firstValueFault?_run (files : S) (words : Words) (flags : List Flag) :
    ∃ fault?,
      (firstValueFault? words flags : StateM S (Option UsageFault)).run files = (fault?, files) ∧
        (fault? = none ↔ ∀ flag ∈ flags, words.Fits files flag) := by
  induction flags with
  | nil => exact ⟨none, rfl, by simp⟩
  | cons flag flags ih =>
    obtain ⟨fault?, hrun, hfault⟩ := valueFault?_run files words flag
    obtain ⟨later?, hlater, hnone⟩ := ih
    rw [firstValueFault?, run_bind_of_run hrun, List.forall_mem_cons, ← hfault, ← hnone]
    cases fault? with
    | none => exact ⟨later?, hlater, by simp⟩
    | some fault => exact ⟨some fault, rfl, by simp⟩

theorem argumentFault?_run (files : S) (words : Words) :
    ∃ fault?, (argumentFault? words : StateM S (Option UsageFault)).run files = (fault?, files) ∧
      (fault? = none ↔ ∃ input, words.arguments = [input] ∧ statusIn files input = .file) := by
  unfold argumentFault?
  cases words.arguments with
  | nil => exact ⟨_, rfl, by simp⟩
  | cons input extra =>
    simp only
    rw [run_bind_of_run (FileSystem.status_run files input)]
    cases hstatus : statusIn files input with
    | missing | unknown | directory | unreadable => exact ⟨_, rfl, by simp [hstatus]⟩
    | file =>
      cases extra with
      | nil => exact ⟨_, rfl, by simp [hstatus]⟩
      | cons second extra => exact ⟨_, rfl, by simp⟩

theorem runWords_of_valid {input : String} (h : words.Valid files input) (console : Console)
    (env : Environment) :
    (runWords console env words : StateM S Report).run files =
      (carryOut console env (requestOf words) : StateM S Report).run files := by
  obtain ⟨fault?, hfirst, hnone⟩ := firstValueFault?_run files words words.flags
  obtain ⟨fault?', hargument, hnone'⟩ := argumentFault?_run files words
  obtain rfl := hnone.2 (Words.fits_flags_iff.2 ⟨h.precision, h.output⟩)
  obtain rfl := hnone'.2 ⟨input, h.arguments, h.input⟩
  simp only [runWords, information?_eq_none_iff.2 ⟨h.noHelp, h.noVersion⟩]
  rw [run_bind_of_run hfirst]
  simp only
  rw [run_bind_of_run hargument]

theorem informationReport_exitCode (console : Console) (text : String) :
    (informationReport console text).exitCode =
      if (console.objection? "" (echoed text)).isSome then 1 else 0 := by
  unfold informationReport
  simp only [Report.tell]
  cases console.objection? "" (echoed text) <;> rfl

theorem runWords_of_not_valid (h : ∀ input, ¬words.Valid files input) (console : Console)
    (env : Environment) :
    ∃ report, (runWords console env words : StateM S Report).run files = (report, files) ∧
      (report.exitCode = 0 ∨ report.exitCode = 2 ∨ report.exitCode = 1 ∧
        ∃ text, (console.objection? "" (echoed text)).isSome = true) := by
  obtain ⟨fault?, hfirst, hnone⟩ := firstValueFault?_run files words words.flags
  obtain ⟨fault?', hargument, hnone'⟩ := argumentFault?_run files words
  unfold runWords
  cases hinformation : information? words with
  | some text =>
    refine ⟨_, rfl, ?_⟩
    rw [informationReport_exitCode]
    by_cases hobjection : (console.objection? "" (echoed text)).isSome = true
    · rw [if_pos hobjection]
      exact .inr (.inr ⟨rfl, text, hobjection⟩)
    · rw [if_neg hobjection]
      exact .inl rfl
  | none =>
  simp only
  rw [run_bind_of_run hfirst]
  cases fault? with
  | some fault => exact ⟨_, rfl, .inr (.inl rfl)⟩
  | none =>
  simp only
  rw [run_bind_of_run hargument]
  cases fault?' with
  | some fault => exact ⟨_, rfl, .inr (.inl rfl)⟩
  | none =>
    -- every check has passed, so the words would be valid
    obtain ⟨hhelp, hversion⟩ := information?_eq_none_iff.1 hinformation
    obtain ⟨hprecision, houtput⟩ := Words.fits_flags_iff.1 (hnone.1 rfl)
    obtain ⟨input, harguments, hinput⟩ := hnone'.1 rfl
    exact absurd ⟨hhelp, hversion, hprecision, houtput, harguments, hinput⟩ (h input)

/-! ## Carrying out a request -/

theorem Complaint.one_lt_exitCode {failure : Failure} (h : ∀ d, failure ≠ .rejected d) :
    1 < (ofFailure failure).exitCode := by
  cases failure with
  | rejected d => exact absurd rfl (h d)
  | file path fault => cases fault <;> simp [ofFailure, exitCode]
  | sourceMissing | undecodable | unencodable | suffix | negativePrecision =>
    simp [ofFailure, exitCode]

def tokenLines (input : Path) (source : String) : List String :=
  (Scanner.start source input.text).readAll.tokens.map Token.dump

/-- A listing of tokens changes no file, and it has exit code 1 exactly if it gets to a fault in the
source. -/
theorem dumpTokens_run (files : S) (console : Console) (input : Path) {report : Report}
    (hcode : report.exitCode = 0) (hstdout : report.stdout = "") :
    ∃ report', (dumpTokens console input report : StateM S Report).run files = (report', files) ∧
      (report'.exitCode = 1 ↔ ∃ source, IsSource files input source ∧
        console.Takes "" (tokenLines input source) ∧
        (Scanner.start source input.text).readAll.failure.isSome = true) := by
  unfold dumpTokens
  rw [run_bind_of_run (Build.readSource_run input files)]
  cases hsource : Build.sourceIn files input with
  | error failure =>
    refine ⟨_, rfl, ?_⟩
    have hmore : 1 < (Complaint.ofFailure failure).exitCode := by
      refine Complaint.one_lt_exitCode ?_
      rintro d rfl
      exact Build.sourceIn_ne_rejected hsource
    refine ⟨fun hone => absurd hone (Nat.ne_of_gt hmore), ?_⟩
    rintro ⟨source, his, -⟩
    rw [Build.sourceIn_eq_ok_iff.2 his] at hsource
    cases hsource
  | ok source =>
    have his := Build.sourceIn_eq_ok_iff.1 hsource
    have hsources : (∃ source, IsSource files input source ∧
        console.Takes "" (tokenLines input source) ∧
        (Scanner.start source input.text).readAll.failure.isSome = true) ↔
          console.Takes "" (tokenLines input source) ∧
            (Scanner.start source input.text).readAll.failure.isSome = true := by
      constructor
      · rintro ⟨source', his', h⟩
        rwa [Build.isSource_unique his his']
      · exact fun h => ⟨source, his, h⟩
    rw [hsources]
    have htell := report.tell_cases console (tokenLines input source)
    rw [hstdout] at htell
    simp only [tokenLines] at htell ⊢
    rcases htell with ⟨htakes, told, htell, htold, -⟩ | ⟨htakes, told, objection, htell⟩
    · rw [htell]
      cases (Scanner.start source input.text).readAll.failure with
      | none => exact ⟨_, rfl, by simp [htold, hcode]⟩
      | some d => exact ⟨_, rfl, by simp [htakes, Report.fail, Complaint.exitCode]⟩
    · rw [htell]
      exact ⟨_, rfl, by simp [htakes, Report.fail, Complaint.exitCode]⟩

/-- The C text `code` of `source` is written to `output`, which leads to `files'`. -/
structure Request.Writes (request : Request) (options : Options) (output : Path) (files files' : S)
    (source code : String) : Prop where
  isSource : IsSource files request.input source
  compiles : targetText source request.input.text options.precision = .ok code
  written : (FileAccess.write output.text (Text.encodeUtf8 code) :
    StateM S (Except FileFault Unit)).run files = (.ok (), files')

theorem compileTo_ends (files : S) (console : Console) (options : Options) {request : Request}
    (output : Path) {report : Report} (hinput : Path.ofText request.input.text = request.input)
    (hcode : report.exitCode = 0) :
    Ends console report.stdout files
      (∃ source, IsSource files request.input source ∧
        ∃ d, targetText source request.input.text options.precision = .error d)
      (fun files' lines => ∃ source code, request.Writes options output files files' source code ∧
        lines = conclusion request (compile options source request.input.text).1 output)
      ((compileTo console options request output report : StateM S Report).run files) := by
  unfold compileTo
  by_cases h : ∃ source, IsSource files request.input source
  case neg =>
    have hnone := not_exists.1 h
    rw [← hinput] at hnone
    obtain ⟨failure, hother, hrun⟩ := Build.compileFile_of_not_isSource hnone options
    rw [run_bind_of_run hrun]
    refine .stopped (Complaint.one_lt_exitCode hother) ?_ ?_
    · rintro ⟨source, his, -⟩
      exact h ⟨source, his⟩
    · rintro files' lines ⟨source, code, hwrites, -⟩
      exact h ⟨source, hwrites.isSource⟩
  case pos =>
  obtain ⟨source, his⟩ := h
  have hverdict := compile_verdict options source request.input.text
  rw [run_bind_of_run (Build.compileFile_of_isSource (hinput.symm ▸ his) options)]
  simp only
  cases htarget : targetText source request.input.text options.precision with
  | error d =>
    rw [htarget] at hverdict
    rw [run_bind_of_run (Build.writeOutput_of_rejected hverdict output files)]
    refine .refused rfl ⟨source, his, d, htarget⟩ ?_
    rintro files' lines ⟨source', code, hwrites, -⟩
    obtain rfl := Build.isSource_unique his hwrites.isSource
    cases htarget.symm.trans hwrites.compiles
  | ok code =>
    rw [htarget] at hverdict
    have hnot : ¬∃ source, IsSource files request.input source ∧
        ∃ d, targetText source request.input.text options.precision = .error d := by
      rintro ⟨source', his', d, herror⟩
      obtain rfl := Build.isSource_unique his his'
      cases htarget.symm.trans herror
    -- what was read from a file has no lone surrogates
    obtain ⟨log, hwrite⟩ := Build.writeOutput_of_encodable hverdict (by simp [compile_lone]) output
      files
    cases hresult : (FileAccess.write output.text (Text.encodeUtf8 code) :
        StateM S (Except FileFault Unit)).run files with
    | mk result files' =>
    rw [hresult] at hwrite
    rw [run_bind_of_run hwrite]
    cases result with
    | error fault =>
      obtain rfl := FileSystem.failed_write _ _ _ _ _ hresult
      refine .stopped (Complaint.one_lt_exitCode (by simp)) hnot ?_
      rintro files' lines ⟨source', code', hwrites, -⟩
      obtain rfl := Build.isSource_unique his hwrites.isSource
      obtain rfl := Except.ok.inj (htarget.symm.trans hwrites.compiles)
      cases hresult.symm.trans hwrites.written
    | ok =>
      simp only
      rcases Report.tell_cases _ console (conclusion request _ output) with
        ⟨htakes, told, htell, htold, -⟩ | ⟨htakes, told, objection, htell⟩
      · rw [htell]
        exact .done (htold.trans hcode) hnot ⟨source, code, ⟨his, htarget, hresult⟩, rfl⟩ htakes
      · rw [htell]
        exact .unheard rfl hnot ⟨source, code, ⟨his, htarget, hresult⟩, rfl⟩ htakes

/-! ## Whole runs -/

namespace Words

/-- The number of digits to print: the value of the option, or else that of the environment if it is
one, or else 2. -/
def printPrecision (words : Words) (env : Environment) : Int :=
  match (words.lastValue? .precision).bind Text.integer? with
  | some precision => precision
  | none =>
    match env.precision.bind Text.integer? with
    | some precision => if 0 ≤ precision then precision else 2
    | none => 2

/-- Where the C text goes: to the value of the option, or else beside the input. -/
def outputPath? (words : Words) (env : Environment) (input : String) : Option Path :=
  match words.lastValue? .output with
  | some word => some (Path.ofText word)
  | none => ((Path.ofText input).withSuffix (Options.suffixFrom env.suffix).1).toOption

/-- The source is refused: by the scanner if only tokens are asked for, and else by the compiler,
which is not asked before there is an output path. What is said up to then is heard. -/
def Refuses (words : Words) (console : Console) (env : Environment) (input source : String) : Prop :=
  if words.has .tokens then
    console.Takes "" (tokenLines (Path.ofText input) source) ∧
      (Scanner.start source (Path.ofText input).text).readAll.failure.isSome = true
  else
    (words.outputPath? env input).isSome = true ∧
      console.Takes "" (announcement (requestOf words)) ∧
      ∃ d, targetText source (Path.ofText input).text (words.printPrecision env) = .error d

def lines (words : Words) (env : Environment) (source : String) (output : Path) : List String :=
  let request := requestOf words
  let options := optionsOf (Options.ofEnvironment env).1 request
  announcement request ++
    conclusion request (compile options source request.input.text).1 output

/-- A run gets as far as to write the C text `code` of `source` to `output`, which leads to
`files'`. -/
structure Writes (words : Words) (console : Console) (env : Environment) (input : String)
    (files files' : S) (source : String) (output : Path) (code : String) : Prop where
  outputPath : words.outputPath? env input = some output
  announced : console.Takes "" (announcement (requestOf words))
  isSource : IsSource files (Path.ofText input) source
  compiles : targetText source (Path.ofText input).text (words.printPrecision env) = .ok code
  written : (FileAccess.write output.text (Text.encodeUtf8 code) :
    StateM S (Except FileFault Unit)).run files = (.ok (), files')

end Words

theorem precisionFrom_eq (value : Option String) :
    (Options.precisionFrom value).1 =
      match value.bind Text.integer? with
      | some precision => if 0 ≤ precision then precision else 2
      | none => 2 := by
  unfold Options.precisionFrom
  cases value with
  | none => rfl
  | some text =>
    by_cases hempty : text.isEmpty
    · obtain rfl := String.isEmpty_iff.1 hempty
      decide
    · simp only [hempty, Option.bind_some]
      cases Text.integer? text with
      | none => rfl
      | some precision =>
        by_cases hneg : precision < 0
        · simp [hneg, Int.not_le.2 hneg]
        · simp [hneg, Int.not_lt.1 hneg]

theorem optionsOf_precision (words : Words) (env : Environment) :
    (optionsOf (Options.ofEnvironment env).1 (requestOf words)).precision =
      words.printPrecision env := by
  unfold optionsOf requestOf Words.printPrecision
  simp only
  cases (words.lastValue? .precision).bind Text.integer? with
  | some precision => rfl
  | none => exact precisionFrom_eq env.precision

theorem requestOf_input {input : String} (h : words.Valid files input) :
    (requestOf words).input = Path.ofText input := by
  simp only [requestOf, h.arguments, List.headD_cons]

theorem outputOf_toOption {input : String} (h : words.Valid files input) (env : Environment) :
    (outputOf (optionsOf (Options.ofEnvironment env).1 (requestOf words)) (requestOf words)).toOption =
      words.outputPath? env input := by
  have hsuffix : (optionsOf (Options.ofEnvironment env).1 (requestOf words)).suffix =
      (Options.suffixFrom env.suffix).1 := by
    unfold optionsOf
    split <;> rfl
  unfold outputOf Words.outputPath? Build.outputPath
  rw [requestOf_input h, hsuffix]
  simp only [requestOf]
  cases words.lastValue? .output with
  | some word => rfl
  | none =>
    simp only [Option.map_none]
    cases (Path.ofText input).withSuffix (Options.suffixFrom env.suffix).1 <;> rfl

theorem outputOf_ne_rejected {options : Options} {request : Request} {d : Diagnostic} :
    outputOf options request ≠ .error (.rejected d) := by
  unfold outputOf Build.outputPath
  cases request.output with
  | some output => nofun
  | none =>
    simp only
    cases request.input.withSuffix options.suffix <;> nofun

theorem carryOut_of_tokens {input : String} (h : words.Valid files input)
    (htokens : words.has .tokens = true) (console : Console) (env : Environment) :
    ∃ report, (carryOut console env (requestOf words) : StateM S Report).run files =
        (report, files) ∧
      (report.exitCode = 1 ↔
        ∃ source, IsSource files (Path.ofText input) source ∧
          words.Refuses console env input source) := by
  unfold carryOut
  simp only
  rw [if_pos (show (requestOf words).tokens = true from htokens), requestOf_input h]
  simp only [Words.Refuses, htokens, if_true]
  exact dumpTokens_run files console (Path.ofText input) rfl rfl

theorem carryOut_ends {input : String} (h : words.Valid files input)
    (htokens : words.has .tokens = false) (console : Console) (env : Environment) :
    Ends console "" files
      (∃ source, IsSource files (Path.ofText input) source ∧ words.Refuses console env input source)
      (fun files' lines => ∃ source output code,
        words.Writes console env input files files' source output code ∧
          lines = words.lines env source output)
      ((carryOut console env (requestOf words) : StateM S Report).run files) := by
  have hinput := requestOf_input h
  have houtput := outputOf_toOption h env
  have hprecision := optionsOf_precision words env
  have hrefuses (source : String) : words.Refuses console env input source ↔
      (words.outputPath? env input).isSome = true ∧
        console.Takes "" (announcement (requestOf words)) ∧
        ∃ d, targetText source (Path.ofText input).text (words.printPrecision env) = .error d := by
    rw [Words.Refuses, if_neg (by rw [htokens]; exact Bool.false_ne_true)]
  unfold carryOut Words.lines
  simp only [hrefuses]
  rw [if_neg (by rw [show (requestOf words).tokens = false from htokens]; exact Bool.false_ne_true)]
  generalize optionsOf (Options.ofEnvironment env).1 (requestOf words) = options at *
  cases hpath : outputOf options (requestOf words) with
  | error failure =>
    rw [hpath] at houtput
    refine .stopped (Complaint.one_lt_exitCode ?_) ?_ ?_
    · rintro d rfl
      exact outputOf_ne_rejected hpath
    · rintro ⟨source, -, hsome, -⟩
      rw [← houtput] at hsome
      cases hsome
    · rintro files' lines ⟨source, output, code, hwrites, -⟩
      cases houtput.trans hwrites.outputPath
  | ok output =>
    rw [hpath] at houtput
    replace houtput : words.outputPath? env input = some output := houtput.symm
    simp only
    rcases Report.tell_cases _ console (announcement (requestOf words)) with
      ⟨htakes, told, htell, hcode, hstdout⟩ | ⟨htakes, told, objection, htell⟩
    · rw [htell]
      -- the input path is turned into its text and read as a path once more
      have hread : Path.ofText (requestOf words).input.text = (requestOf words).input := by
        rw [hinput, Path.ofText_text_ofText]
      have hends := compileTo_ends files console options output hread hcode
      rw [hstdout] at hends
      refine hends.prepend htakes ?_ ?_
      · simp [hinput, hprecision, houtput, (show console.Takes "" _ from htakes)]
      · intro files' lines
        constructor
        · rintro ⟨source, _, code, ⟨houtput', -, his, htarget, hwrite⟩, rfl⟩
          obtain rfl := Option.some.inj (houtput.symm.trans houtput')
          refine ⟨_, ⟨source, code, ⟨?_, ?_, hwrite⟩, rfl⟩, rfl⟩
          · rwa [hinput]
          · rwa [hinput, hprecision]
        · rintro ⟨_, ⟨source, code, ⟨his, htarget, hwrite⟩, rfl⟩, rfl⟩
          rw [hinput] at his htarget
          rw [hprecision] at htarget
          exact ⟨source, output, code, ⟨houtput, htakes, his, htarget, hwrite⟩, rfl⟩
    · rw [htell]
      refine .stopped (by simp [Report.fail, Complaint.exitCode]) ?_ ?_
      · rintro ⟨source, -, -, hannounced, -⟩
        exact htakes hannounced
      · rintro files' lines ⟨source, output, code, hwrites, -⟩
        exact htakes hwrites.announced

section Print

def printFiles : FileTree :=
  .single "a.teeny" (Text.encodeUtf8 "PRINT 1\r\n")

def printWords : Words :=
  { options := [(.precision, some "1")], arguments := ["a.teeny"] }

theorem splitWords_print : splitWords ["a.teeny", "-p", "1"] = .ok printWords := by
  have hread : (splitWords ["a.teeny", "-p", "1"]).toOption = some printWords := by
    decide +kernel
  cases hsplit : splitWords ["a.teeny", "-p", "1"] with
  | error fault =>
    rw [hsplit] at hread
    cases hread
  | ok words =>
    rw [hsplit] at hread
    rw [Option.some.inj hread]

def printRun : Report × FileTree :=
  (run {} {} ["a.teeny", "-p", "1"] : StateM FileTree Report).run printFiles

end Print

end TeenyLang.CommandLine
