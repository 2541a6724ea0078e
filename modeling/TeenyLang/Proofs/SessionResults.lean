import TeenyLang.Session
import TeenyLang.Proofs.LineNames
import TeenyLang.Proofs.LoneReturns
import Mathlib.Data.String.Basic

set_option autoImplicit false

/-!
# The results of a session

A compilation describes its source: whether it is accepted, its C text or its diagnostic, its names
and the number of its tokens. A step of a session adds at most one result and changes none, so a
result that was kept at some time can be written out as it was whatever was done since.
-/
namespace TeenyLang

open Grammar

/-! ## What a compilation says -/

namespace Compilation

structure Lists (c : Compilation) (P : Program) : Prop where
  sorted : c.variableNames.Pairwise (· < ·)
  variableNames : ∀ name, name ∈ c.variableNames ↔ name ∈ named .target P.uses
  labels : c.labels = named .label P.uses
  tokenCount : c.tokenCount = P.tokens.length

/-- What a compilation says of a source is right. -/
structure Describes (c : Compilation) (source name : String) (precision : Int) : Prop where
  file : c.file = name
  isAccepted : c.isAccepted = true ↔ c.diagnostic? = none
  accepted : c.isAccepted = true → targetText source name precision = .ok c.output
  rejected : ∀ d, c.diagnostic? = some d →
    targetText source name precision = .error d ∧ c.output = ""
  tree : c.isAccepted = true → ∃ P, Derives source name P
  lists : c.isAccepted = true → ∀ P, Derives source name P → c.Lists P

/-- None of the characters of the C text stands for a lone surrogate. -/
def IsEncodable (c : Compilation) : Prop :=
  ∀ char ∈ c.output.toList, char ∉ c.lone

theorem verdict_of_isAccepted {c : Compilation} (h : c.isAccepted = true) :
    c.verdict = .accepted c.output := by
  unfold isAccepted at h
  split at h
  · next hverdict => simp only [output, hverdict]
  · cases h

theorem verdict_of_diagnostic {c : Compilation} {d : Diagnostic} (h : c.diagnostic? = some d) :
    c.verdict = .rejected d := by
  unfold diagnostic? at h
  split at h
  · next hverdict => rw [hverdict, Option.some.inj h]
  · cases h

end Compilation

theorem Parser.Translates.sortedVariables {precision : Int} {P : Program} {p : Parser Scanner}
    (h : p.Translates precision P) : p.sortedVariables.Pairwise (· < ·) := by
  have hsorted : p.sortedVariables.Pairwise fun x y => decide (x ≤ y) = true := by
    refine List.pairwise_mergeSort (fun x y z hxy hyz => ?_) (fun x y => ?_) p.variableNames
    · rw [decide_eq_true_eq] at hxy hyz ⊢
      exact hxy.trans hyz
    · simpa using le_total x y
  have hnodup : p.sortedVariables.Nodup := by
    rw [Parser.sortedVariables, (List.mergeSort_perm _ _).nodup_iff, h.variableNames]
    exact eraseDups_nodup _
  exact (hsorted.and hnodup).imp fun h => lt_of_le_of_ne (of_decide_eq_true h.1) h.2

theorem compile_lists {options : Options} {source file : String}
    (h : (compile options source file).1.isAccepted = true) {P : Program}
    (hP : Derives source file P) : (compile options source file).1.Lists P := by
  obtain ⟨p, hp, hcompile⟩ := finished_of_isAccepted h
  have htranslates := (translates_of_finished hp hP).2
  rw [hcompile]
  refine ⟨htranslates.sortedVariables, fun name => ?_, htranslates.labels, ?_⟩
  · change name ∈ p.sortedVariables ↔ _
    rw [Parser.sortedVariables, List.mem_mergeSort, htranslates.variableNames, List.mem_eraseDups]
  · obtain ⟨ts, last, -, htokens, hcount⟩ := Parser.finished_tokens hp
    obtain ⟨-, last', -, htokens'⟩ := hP
    rw [← List.append_inj_left' (htokens.symm.trans htokens') rfl]
    exact hcount

theorem targetText_of_accepted {options : Options} {source file code : String}
    (h : (compile options source file).1.verdict = .accepted code) :
    targetText source file options.precision = .ok code := by
  rw [compile_verdict] at h
  split at h
  · next htarget => rw [htarget, Verdict.accepted.inj h]
  · cases h

theorem targetText_of_rejected {options : Options} {source file : String} {d : Diagnostic}
    (h : (compile options source file).1.verdict = .rejected d) :
    targetText source file options.precision = .error d := by
  rw [compile_verdict] at h
  split at h
  · cases h
  · next htarget => rw [htarget, Verdict.rejected.inj h]

theorem Compilation.Describes.with_lone {c : Compilation} {source name : String} {precision : Int}
    (h : c.Describes source name precision) (lone : List Char) :
    { c with lone := lone }.Describes source name precision where
  file := h.file
  isAccepted := h.isAccepted
  accepted := h.accepted
  rejected := h.rejected
  tree := h.tree
  lists haccepted P hP :=
    have hlists := h.lists haccepted P hP
    ⟨hlists.sorted, hlists.variableNames, hlists.labels, hlists.tokenCount⟩

theorem compile_describes (options : Options) (source file : String) :
    (compile options source file).1.Describes source file options.precision where
  file := by
    unfold compile
    split
    · rfl
    · split <;> rfl
  isAccepted := by
    simp only [Compilation.isAccepted, Compilation.diagnostic?, compile_verdict]
    cases targetText source file options.precision <;> simp
  accepted h := targetText_of_accepted (Compilation.verdict_of_isAccepted h)
  rejected d h := by
    have hverdict := Compilation.verdict_of_diagnostic h
    exact ⟨targetText_of_rejected hverdict, by simp only [Compilation.output, hverdict]⟩
  tree h := derives_of_targetText (targetText_of_accepted (Compilation.verdict_of_isAccepted h))
  lists h P hP := compile_lists h hP

namespace Session

variable {S : Type} [FileSystem S]

/-! ## Steps and runs -/

def stepIn (s : Session) (files : S) (x : Step) : (Session × Reply × List LogEntry) × S :=
  (s.step x : StateM S (Session × Reply × List LogEntry)).run files

def after (s : Session) (files : S) (steps : List Step) : Session × S :=
  let ended := (s.run steps : StateM S (Session × List (Reply × List LogEntry))).run files
  (ended.1.1, ended.2)

theorem after_cons (s : Session) (files : S) (x : Step) (rest : List Step) :
    s.after files (x :: rest) = (s.stepIn files x).1.1.after (s.stepIn files x).2 rest := by
  have hstep : (s.step x : StateM S (Session × Reply × List LogEntry)).run files =
    (((s.stepIn files x).1.1, (s.stepIn files x).1.2), (s.stepIn files x).2) := rfl
  unfold after
  rw [run, run_bind_of_run hstep]
  rfl

theorem after_append (s : Session) (files : S) (before rest : List Step) :
    s.after files (before ++ rest) =
      (s.after files before).1.after (s.after files before).2 rest := by
  induction before generalizing s files with
  | nil => rfl
  | cons x before ih => rw [List.cons_append, after_cons, after_cons, ih]

def Step.precision (old : Int) : Step → Int
  | .setPrecision value => value
  | _ => old

/-- The step compiles `source`, in which the characters `lone` stand for lone surrogates, and calls it
`file`. What is read from a file has none. -/
inductive Step.Compiles (files : S) : Step → String → String → List Char → Prop where
  | text (source file : String) (lone : List Char) :
    Compiles files (.compileText source file lone) source file lone
  | file {path source : String} (h : Build.IsSource files (Path.ofText path) source) :
    Compiles files (.compileFile path) source path []

theorem stepIn_of_compiles (s : Session) {files : S} {x : Step} {source file : String}
    {lone : List Char} (h : x.Compiles files source file lone) :
    let c := { (compile s.options source file).1 with lone := lone }
    s.stepIn files x = ((s.keep c, .compiled c, (compile s.options source file).2), files) := by
  cases h with
  | text => rfl
  | file h =>
    have hlone : { (compile s.options source file).1 with lone := [] } =
        (compile s.options source file).1 := by
      rw [← compile_lone s.options source file]
    unfold stepIn step
    rw [run_bind_of_run (Build.compileFile_of_isSource h s.options), hlone]
    rfl

theorem stepIn_write (s : Session) (files : S) (index : Nat) (path : String) :
    s.stepIn files (.write index path) =
      match (Build.writeOutput (s.result index) (Path.ofText path) :
          StateM S (Except Failure Unit × List LogEntry)).run files with
      | ((.ok (), log), files') => ((s, .path (Path.ofText path).text, log), files')
      | ((.error failure, log), files') => ((s, .failed failure, log), files') := by
  unfold stepIn step
  cases hwrite : (Build.writeOutput (s.result index) (Path.ofText path) :
    StateM S (Except Failure Unit × List LogEntry)).run files with
  | mk result files' =>
  rw [run_bind_of_run hwrite]
  rcases result with ⟨_ | _, log⟩ <;> rfl

/-- A step compiles something, keeps an empty result, or adds no result. -/
theorem stepIn_cases (s : Session) (files : S) (x : Step) :
    (∃ source file lone, x.Compiles files source file lone) ∨ x = .keepEmpty ∨
      (s.stepIn files x).1.1.results = s.results ∧
        (s.stepIn files x).1.1.options.precision = x.precision s.options.precision ∧
        ∀ c, (s.stepIn files x).1.2.1 ≠ .compiled c := by
  cases x with
  | compileText source file lone => exact .inl ⟨source, file, lone, .text source file lone⟩
  | compileFile path =>
    by_cases hsource : ∃ source, Build.IsSource files (Path.ofText path) source
    · obtain ⟨source, hsource⟩ := hsource
      exact .inl ⟨source, path, [], .file hsource⟩
    · rw [not_exists] at hsource
      obtain ⟨failure, -, hfile⟩ := Build.compileFile_of_not_isSource hsource s.options
      have hstep : s.stepIn files (.compileFile path) = ((s, .failed failure, []), files) := by
        unfold stepIn step
        rw [run_bind_of_run hfile]
        rfl
      rw [hstep]
      exact .inr (.inr ⟨rfl, rfl, by simp⟩)
  | keepEmpty => exact .inr (.inl rfl)
  | write index path =>
    rw [stepIn_write]
    refine .inr (.inr ?_)
    split <;> exact ⟨rfl, rfl, by simp⟩
  | demandSuccess index =>
    refine .inr (.inr ?_)
    unfold stepIn step
    dsimp only
    split <;> exact ⟨rfl, rfl, by simp⟩
  | outputPath path =>
    refine .inr (.inr ?_)
    unfold stepIn step
    dsimp only
    split <;> exact ⟨rfl, rfl, by simp⟩
  | setPrecision value => exact .inr (.inr ⟨rfl, rfl, by simp [stepIn, step]⟩)
  | setSuffix suffix => exact .inr (.inr ⟨rfl, rfl, by simp [stepIn, step]⟩)

theorem stepIn_keeps (s : Session) (files : S) (x : Step) :
    s.results <+: (s.stepIn files x).1.1.results ∧
      (s.stepIn files x).1.1.options.precision = x.precision s.options.precision := by
  rcases stepIn_cases s files x with ⟨source, file, lone, h⟩ | rfl | ⟨hresults, hprecision, -⟩
  · rw [stepIn_of_compiles s h]
    refine ⟨List.prefix_append _ _, ?_⟩
    cases h <;> rfl
  · exact ⟨List.prefix_append _ _, rfl⟩
  · rw [hresults]
    exact ⟨List.prefix_rfl, hprecision⟩

theorem after_keeps (s : Session) (files : S) (steps : List Step) :
    s.results <+: (s.after files steps).1.results ∧
      (s.after files steps).1.options.precision =
        steps.foldl Step.precision s.options.precision := by
  induction steps generalizing s files with
  | nil => exact ⟨List.prefix_rfl, rfl⟩
  | cons x rest ih =>
    obtain ⟨hresults, hprecision⟩ := stepIn_keeps s files x
    obtain ⟨hrest, hfinal⟩ := ih (s.stepIn files x).1.1 (s.stepIn files x).2
    rw [after_cons, List.foldl_cons, ← hprecision]
    exact ⟨hresults.trans hrest, hfinal⟩

/-! ## Results kept and written -/

theorem result_after_keep (s : Session) (files : S) (c : Compilation) (rest : List Step) :
    ((s.keep c).after files rest).1.results[s.results.length]? = some c := by
  obtain ⟨more, hmore⟩ := (after_keeps (s.keep c) files rest).1
  rw [← hmore]
  simp [keep]

/-- Result number `index` is `c`, and to write it out is to write the C text of `c`, unless `c` was
rejected. A C text with a lone surrogate cannot be written, but the file is emptied. -/
structure Keeps (s : Session) (files : S) (index : Nat) (c : Compilation) : Prop where
  result : s.results[index]? = some c
  refuses : ∀ path d, c.diagnostic? = some d →
    s.stepIn files (.write index path) = ((s, .failed (.rejected d), []), files)
  writes : ∀ path files', c.isAccepted = true → c.IsEncodable →
    (FileAccess.write (Path.ofText path).text (Text.encodeUtf8 c.output) :
        StateM S (Except FileFault Unit)).run files = (.ok (), files') →
      Build.Wrote files files' (Path.ofText path).text (Text.encodeUtf8 c.output) ∧
        ∃ log, s.stepIn files (.write index path) =
          ((s, .path (Path.ofText path).text, log), files')
  faults : ∀ path files' fault, c.isAccepted = true → c.IsEncodable →
    (FileAccess.write (Path.ofText path).text (Text.encodeUtf8 c.output) :
        StateM S (Except FileFault Unit)).run files = (.error fault, files') →
      s.stepIn files (.write index path) =
        ((s, .failed (.file (Path.ofText path).text fault), []), files)
  empties : ∀ path files', c.isAccepted = true → ¬c.IsEncodable →
    (FileAccess.write (Path.ofText path).text .empty :
        StateM S (Except FileFault Unit)).run files = (.ok (), files') →
      Build.Wrote files files' (Path.ofText path).text .empty ∧
        ∃ error, s.stepIn files (.write index path) =
          ((s, .failed (.unencodable error), []), files')
  emptyFaults : ∀ path files' fault, c.isAccepted = true → ¬c.IsEncodable →
    (FileAccess.write (Path.ofText path).text .empty :
        StateM S (Except FileFault Unit)).run files = (.error fault, files') →
      s.stepIn files (.write index path) =
        ((s, .failed (.file (Path.ofText path).text fault), []), files)

theorem keeps_of_result {s : Session} {index : Nat} {c : Compilation}
    (h : s.results[index]? = some c) (files : S) : s.Keeps files index c := by
  have hresult : s.result index = c := by rw [result, h, Option.getD_some]
  have hencoded (path : String) (haccepted : c.isAccepted = true) (hcode : c.IsEncodable) :=
    Build.writeOutput_of_encodable (Compilation.verdict_of_isAccepted haccepted) hcode
      (Path.ofText path) files
  have hlone (path : String) (haccepted : c.isAccepted = true) (hcode : ¬c.IsEncodable) :=
    Build.writeOutput_of_lone (Compilation.verdict_of_isAccepted haccepted) hcode
      (Path.ofText path) files
  refine ⟨h, ?_, ?_, ?_, ?_, ?_⟩
  · intro path d hd
    have hverdict := Compilation.verdict_of_diagnostic hd
    rw [stepIn_write, hresult, Build.writeOutput_of_rejected hverdict]
  · intro path files' haccepted hcode hwrite
    obtain ⟨log, hrun⟩ := hencoded path haccepted hcode
    rw [stepIn_write, hresult, hrun, hwrite]
    exact ⟨Build.wrote_of_write hwrite, log, rfl⟩
  · intro path files' fault haccepted hcode hwrite
    obtain ⟨log, hrun⟩ := hencoded path haccepted hcode
    rw [stepIn_write, hresult, hrun, hwrite, FileSystem.failed_write _ _ _ _ _ hwrite]
  · intro path files' haccepted hcode hwrite
    obtain ⟨error, hrun⟩ := hlone path haccepted hcode
    rw [stepIn_write, hresult, hrun, hwrite]
    exact ⟨Build.wrote_of_write hwrite, error, rfl⟩
  · intro path files' fault haccepted hcode hwrite
    obtain ⟨error, hrun⟩ := hlone path haccepted hcode
    rw [stepIn_write, hresult, hrun, hwrite, FileSystem.failed_write _ _ _ _ _ hwrite]

/-- In any session a step gives a result exactly if there is a source to compile. The result
describes the source, with the precision in force then, and stays what it is: whatever comes after,
to write it out writes its C text to one file if it was accepted and can be encoded, and else fails.
A rejected one fails with its diagnostic and changes no file. -/
theorem session_results (s : Session) (files : S) (before : List Step) (x : Step) :
    let now := s.after files before
    (∀ c, x ≠ .keepEmpty → (now.1.stepIn now.2 x).1.2.1 = .compiled c →
      ∃ source file lone, x.Compiles now.2 source file lone) ∧
    ∀ source file lone, x.Compiles now.2 source file lone →
      ∃ c log, now.1.stepIn now.2 x = ((now.1.keep c, .compiled c, log), now.2) ∧
        c.Describes source file (before.foldl Step.precision s.options.precision) ∧ c.lone = lone ∧
        ∀ rest, let later := s.after files (before ++ x :: rest)
          later.1.Keeps later.2 now.1.results.length c := by
  intro now
  constructor
  · intro c hne hreply
    rcases stepIn_cases now.1 now.2 x with hcompiles | hempty | ⟨-, -, hnone⟩
    · exact hcompiles
    · exact absurd hempty hne
    · exact absurd hreply (hnone c)
  · intro source file lone h
    have hstep := stepIn_of_compiles now.1 h
    refine ⟨{ (compile now.1.options source file).1 with lone := lone },
      (compile now.1.options source file).2, hstep, ?_, rfl, fun rest => ?_⟩
    · rw [← (after_keeps s files before).2]
      exact (compile_describes now.1.options source file).with_lone lone
    · apply keeps_of_result
      rw [after_append, after_cons, hstep]
      exact result_after_keep now.1 now.2 _ rest

def sumText : String :=
  "LET a = 1\nPRINT a + a\n"

def sumFile : FileTree :=
  .single "a.teeny" (Text.encodeUtf8 sumText)

theorem isSource_sumFile : Build.IsSource sumFile (Path.ofText "a.teeny") sumText :=
  ⟨sumText, rfl, by decide⟩

/-- A file that is compiled with another precision after a text that is rejected. -/
theorem session_results_second :
    let start : Session := ⟨{}, []⟩
    let before := [.compileText "PRINT a" "text", .setPrecision 3]
    let now := start.after sumFile before
    ∃ c log, now.1.stepIn now.2 (.compileFile "a.teeny") =
        ((now.1.keep c, .compiled c, log), now.2) ∧
      c.Describes sumText "a.teeny" 3 ∧ c.lone = [] ∧
      ∀ rest, let later := start.after sumFile (before ++ .compileFile "a.teeny" :: rest)
        later.1.Keeps later.2 1 c :=
  (session_results ⟨{}, []⟩ sumFile [.compileText "PRINT a" "text", .setPrecision 3]
    (.compileFile "a.teeny")).2 sumText "a.teeny" [] (.file isSource_sumFile)

/-- A program is accepted that prints a lone surrogate, for which another character stands. To write
it out fails, and the file is empty afterwards. -/
theorem write_empties_file :
    let files := FileTree.single "out.c" (Text.encodeUtf8 "old\n")
    let now := (⟨{}, []⟩ : Session).after files
      [.compileText "PRINT \"\ue000\"\n" "<input>" ['\ue000']]
    (now.1.result 0).isAccepted = true ∧
      (now.1.stepIn now.2 (.write 0 "out.c")).1.2.1 = .failed (.unencodable ⟨['\ue000'], 44⟩) ∧
      (now.1.stepIn now.2 (.write 0 "out.c")).2.content? ["out.c"] = some .empty := by
  decide +kernel

end Session

end TeenyLang
