import TeenyLang.Proofs.LoneReturns
import TeenyLang.Proofs.OutputName

set_option autoImplicit false

/-!
# What becomes of the input

A run writes to one file at most, and without an output option that file is named like the input.
So the input stays as it is unless the two paths lead to the same file. Where no two names in a
directory do, they lead to the same file exactly if the input has the suffix of the output already.
-/
namespace TeenyLang

open FileAccess (readIn)

/-! ## A C text is no source -/

namespace Scanner

variable {s : Scanner} {text : List Char}

theorem failure_of_found (h : s.cursor.rest = text) (kind : Kind) (word : String) (length : Nat)
    (after : List Char)
    (hlexeme : readLexeme (text.drop (Lexeme.gap text).length) = .found kind word length)
    (hkind : kind ≠ .endOfInput)
    (hafter : (text.drop (Lexeme.gap text).length).drop length = after) :
    ∃ s' : Scanner, s'.readAll.failure = s.readAll.failure ∧ s'.cursor.rest = after := by
  subst h hafter
  let cursor := s.cursor.advanceBy (Lexeme.gap s.cursor.rest).length
  have hnext : next s =
      .ok ⟨kind, word, cursor.location s.file⟩ { s with cursor := cursor.advanceBy length } := by
    simp only [next, Cursor.advanceBy_rest, hlexeme, cursor]
  refine ⟨{ s with cursor := cursor.advanceBy length }, ?_, ?_⟩
  · rw [readAll_of_ok hnext, if_neg hkind]
  · simp only [Cursor.advanceBy_rest, cursor]

theorem failure_of_fault (h : s.cursor.rest = text) {before : Nat} {cause : Cause}
    (hlexeme : readLexeme (text.drop (Lexeme.gap text).length) = .fault before cause) :
    s.readAll.failure ≠ none := by
  subst h
  cases hnext : next s with
  | error d s' =>
    rw [readAll_of_error hnext]
    simp
  | ok t s' => simp [next, Cursor.advanceBy_rest, hlexeme] at hnext

/-- After a comment and two words there is a parenthesis, which starts no token. -/
theorem failure_heading {more : List Char}
    (h : s.cursor.rest = "#include <stdio.h>\nint main(void) \x7b\n".toList ++ more) :
    s.readAll.failure ≠ none := by
  obtain ⟨s₁, hline, hrest₁⟩ := failure_of_found h .newline "\n" 1
    ("int main(void) \x7b\n".toList ++ more) rfl (by decide) rfl
  obtain ⟨s₂, hint, hrest₂⟩ := failure_of_found hrest₁ .identifier "int" 3
    (" main(void) \x7b\n".toList ++ more) rfl (by decide) rfl
  obtain ⟨s₃, hmain, hrest₃⟩ := failure_of_found hrest₂ .identifier "main" 4
    ("(void) \x7b\n".toList ++ more) rfl (by decide) rfl
  rw [← hline, ← hint, ← hmain]
  exact failure_of_fault hrest₃ rfl

end Scanner

theorem targetText_heading {source file code : String} {precision : Int}
    (h : targetText source file precision = .ok code) : ∃ more, code = heading ++ more := by
  obtain ⟨p, hp⟩ := finished_of_targetText h
  obtain ⟨P, hP⟩ := derives_of_finished hp
  rw [targetText_eq_finished, hp] at h
  have hcode : p.listing.opening ++ p.listing.body = code := Except.ok.inj h
  rw [(translates_of_finished hp hP).2.opening, String.append_assoc] at hcode
  exact ⟨_, hcode.symm⟩

/-- The C text of a file is not what stood in the file. -/
theorem targetText_ne {text file code : String} {precision : Int}
    (h : targetText (String.ofList (Text.unifyNewlines text.toList)) file precision = .ok code) :
    code ≠ text := by
  rintro rfl
  obtain ⟨P, hread, -⟩ := derives_of_targetText h
  obtain ⟨more, rfl⟩ := targetText_heading h
  have hchars : Text.unifyNewlines (heading ++ more).toList =
      "#include <stdio.h>\nint main(void) \x7b\n".toList ++ Text.unifyNewlines more.toList := by
    rw [String.toList_append]
    rfl
  have hrest : (Scanner.start (String.ofList (Text.unifyNewlines (heading ++ more).toList))
      file).cursor.rest =
        "#include <stdio.h>\nint main(void) \x7b\n".toList ++
          (Text.unifyNewlines more.toList ++ ['\n']) := by
    rw [← List.append_assoc, ← hchars]
    exact congrArg (· ++ ['\n']) String.toList_ofList
  exact Scanner.failure_heading hrest hread

theorem Text.encodeUtf8_inj {text text' : String} (h : encodeUtf8 text = encodeUtf8 text') :
    text = text' := by
  have hread : decodeUtf8 (encodeUtf8 text) = .ok text.toList :=
    decodeUtf8_eq_ok_iff.2 (by rw [String.ofList_toList])
  rw [h, decodeUtf8_eq_ok_iff.2 (by rw [String.ofList_toList]) ] at hread
  exact String.toList_inj.1 (Except.ok.inj hread).symm

/-! ## Two names in one directory -/

theorem Path.components_concat {p : Path} (hnames : ∀ name ∈ p.names, IsName name)
    (hne : p.names ≠ []) :
    components p.text = rootComponents p.root ++ p.names.dropLast ++ [p.names.getLast hne] := by
  rw [components_text hnames hne, List.append_assoc, List.dropLast_concat_getLast]

/-- A path beside another differs from it in the last name alone. -/
theorem Path.Beside.exists_last {p q : Path} (h : p.Beside q) :
    ∃ last, IsName last ∧ last ≠ ".." ∧ q = ⟨p.root, p.names.dropLast ++ [last]⟩ := by
  obtain ⟨last, hlast, hname, hup⟩ := h.name
  obtain ⟨dirs, hdirs⟩ := List.getLast?_eq_some_iff.1 hlast
  have hdirectory := h.directory
  rw [hdirs, List.dropLast_concat] at hdirectory
  exact ⟨last, hname, hup, by rw [← hdirectory, ← hdirs, ← h.root]⟩

/-- Two names in one directory lead to two files. -/
def FileSystem.Separate {S : Type} [FileSystem S] (files : S) : Prop :=
  ∀ (p q : Path) (content : ByteArray), (∀ name ∈ p.names, Path.IsName name) → p.names ≠ [] →
    p.Beside q → readIn files p.text = .ok content →
      FileSystem.spot files q.text = FileSystem.spot files p.text → q = p

namespace FileTree

variable {tree : FileTree}

theorem walk_of_resolve {path : String} {names : List String} (h : tree.resolve path = .ok names) :
    tree.walk (tree.startOf path) (Path.components path) = .ok names := by
  change (checkPath path).bind _ = _ at h
  cases hcheck : checkPath path with
  | error fault =>
    rw [hcheck] at h
    cases h
  | ok =>
    rw [hcheck] at h
    exact h

theorem walk_concat {start before names : List String} {last : String}
    (h : tree.walk start (before ++ [last]) = .ok names) :
    ∃ place, tree.walk start before = .ok place ∧ tree.walk place [last] = .ok names := by
  rw [walk_append] at h
  cases hwalk : tree.walk start before with
  | error fault =>
    rw [hwalk] at h
    cases h
  | ok place =>
    rw [hwalk] at h
    exact ⟨place, rfl, h⟩

theorem walk_single {place names : List String} {last : String} (hlast : Path.IsName last)
    (h : tree.walk place [last] = .ok names) :
    tree.node? place = some .directory ∧ (names = place.dropLast ∨ names = place ++ [last]) := by
  have hplain : (last.isEmpty || last == ".") = false := by
    simp [hlast.ne_empty, hlast.ne_dot]
  unfold walk at h
  split at h
  · cases h
  · cases h
  · next hnode =>
    refine ⟨hnode, ?_⟩
    simp only [hplain, Bool.false_eq_true, if_false] at h
    split at h
    · exact .inl (Except.ok.inj h).symm
    · split at h
      · cases h
      · split at h
        · cases h
        · exact .inr (Except.ok.inj h).symm

theorem startOf_text {p : Path} (hnames : ∀ name ∈ p.names, Path.IsName name) (hne : p.names ≠ []) :
    tree.startOf p.text = if p.root = .here then tree.home else [] := by
  obtain ⟨root, names⟩ := p
  cases names with
  | nil => exact absurd rfl hne
  | cons name names =>
    obtain ⟨c, rest, hc, hhead⟩ := Path.join_head (hnames name List.mem_cons_self) names
    rw [startOf, Path.text_of_names hne, String.toList_append, hhead]
    cases root with
    | here => simp [Path.rootText, hc]
    | slash => simp [Path.rootText]
    | doubleSlash => simp [Path.rootText]

/-- A file that can be read stands in a directory, or else above one. -/
theorem spotOf_of_readAt {p : Path} {content : ByteArray}
    (hnames : ∀ name ∈ p.names, Path.IsName name) (hne : p.names ≠ [])
    (h : tree.readAt p.text = .ok content) :
    ∃ place, tree.walk (tree.startOf p.text) (Path.rootComponents p.root ++ p.names.dropLast) =
        .ok place ∧ tree.node? place = some .directory ∧
      (tree.spotOf p.text = place.dropLast ∨
        tree.spotOf p.text = place ++ [p.names.getLast hne]) := by
  obtain ⟨names, hresolve, -⟩ := readAt_eq_ok h
  have hspot : tree.spotOf p.text = names := by simp only [spotOf, hresolve]
  have hwalk := walk_of_resolve hresolve
  rw [Path.components_concat hnames hne] at hwalk
  obtain ⟨place, hplace, hstep⟩ := walk_concat hwalk
  obtain ⟨hnode, hnames'⟩ := walk_single (hnames _ (List.getLast_mem hne)) hstep
  exact ⟨place, hplace, hnode, hspot ▸ hnames'⟩

theorem spotOf_of_plain {root : PathRoot} {dirs place : List String} {last : String}
    (hnames : ∀ name ∈ dirs ++ [last], Path.IsName name) (hup : last ≠ "..")
    (hplace : tree.walk (tree.startOf (Path.text ⟨root, dirs ++ [last]⟩))
      (Path.rootComponents root ++ dirs) = .ok place)
    (hnode : tree.node? place = some .directory) :
    tree.spotOf (Path.text ⟨root, dirs ++ [last]⟩) = place ++ [last] := by
  have hcomponents := @Path.components_concat ⟨root, dirs ++ [last]⟩ hnames (List.concat_ne_nil _ _)
  simp only [List.dropLast_concat, List.getLast_concat] at hcomponents
  have hlast : (Path.components (Path.text ⟨root, dirs ++ [last]⟩)).getLast?.getD "" = last := by
    rw [hcomponents, List.getLast?_concat, Option.getD_some]
  have hname := hnames last (by simp)
  rw [spotOf_eq (by rw [hcomponents, List.dropLast_concat, hplace]) hnode, hlast]
  rw [hlast]
  simp [hname.ne_empty, hname.ne_dot, hup]

theorem separate (tree : FileTree) : FileSystem.Separate tree := by
  intro p q content hnames hne hbeside hread hspot
  obtain ⟨last, hname, hup, rfl⟩ := hbeside.exists_last
  have hnames' : ∀ name ∈ p.names.dropLast ++ [last], Path.IsName name := by
    intro name hmem
    rcases List.mem_append.1 hmem with hdir | hlast
    · exact hnames name (List.dropLast_subset _ hdir)
    · exact List.mem_singleton.1 hlast ▸ hname
  have hstart : tree.startOf (Path.text ⟨p.root, p.names.dropLast ++ [last]⟩) = tree.startOf p.text := by
    rw [startOf_text hnames hne, startOf_text hnames' (List.concat_ne_nil _ _)]
  obtain ⟨place, hplace, hnode, hplaces⟩ := spotOf_of_readAt hnames hne hread
  replace hspot : place ++ [last] = tree.spotOf p.text :=
    (spotOf_of_plain hnames' hup (hstart ▸ hplace) hnode).symm.trans hspot
  rcases hplaces with habove | hthere
  · have hlength := congrArg List.length (hspot.trans habove)
    simp only [List.length_append, List.length_singleton, List.length_dropLast] at hlength
    omega
  · have hlast : last = p.names.getLast hne := by simpa using hspot.trans hthere
    rw [hlast, List.dropLast_concat_getLast]

end FileTree

/-! ## Runs -/

namespace CommandLine

open Build (IsSource Wrote)

variable {S : Type} [FileSystem S] {files files' : S} {words : Words} {input : String}
  {console : Console} {env : Environment} {report : Report}

/-- A run gets as far as to write the C text of `input`. What the stream takes after that makes no
difference. -/
structure Words.Compiles (files : S) (words : Words) (console : Console) (env : Environment)
    (input : String) : Prop where
  valid : words.Valid files input
  noTokens : words.has .tokens = false
  writes : ∃ files' source output code,
    words.Writes console env input files files' source output code

/-- The output goes to the file that the input comes from. -/
def Words.Meets (files : S) (words : Words) (env : Environment) (input : String) : Prop :=
  ∃ output, words.outputPath? env input = some output ∧
    FileSystem.spot files output.text = FileSystem.spot files (Path.ofText input).text

theorem runWords_cases (hinput : words.arguments.head? = some input)
    (h : (runWords console env words : StateM S Report).run files = (report, files')) :
    (¬words.Compiles files console env input ∧ files' = files) ∨
      words.Compiles files console env input ∧
        ∃ source output code, words.Writes console env input files files' source output code := by
  by_cases hvalid : words.Valid files input
  case neg =>
    have hnone : ∀ other, ¬words.Valid files other := by
      intro other hother
      rw [hother.arguments] at hinput
      exact hvalid (Option.some.inj hinput ▸ hother)
    obtain ⟨report', hrun, -⟩ := runWords_of_not_valid hnone console env
    exact .inl ⟨fun hcompiles => hvalid hcompiles.valid, (Prod.mk.inj (h.symm.trans hrun)).2⟩
  case pos =>
  rw [runWords_of_valid hvalid console env] at h
  cases htokens : words.has .tokens with
  | true =>
    obtain ⟨report', hrun, -⟩ := carryOut_of_tokens hvalid htokens console env
    refine .inl ⟨fun hcompiles => ?_, (Prod.mk.inj (h.symm.trans hrun)).2⟩
    rw [hcompiles.noTokens] at htokens
    cases htokens
  | false =>
    have hends := carryOut_ends hvalid htokens console env
    rw [h] at hends
    rcases hends.written_or_unchanged with
      ⟨hnone, -, hsame⟩ | ⟨_, ⟨source, output, code, hwrites, -⟩, -⟩
    · refine .inl ⟨fun hcompiles => ?_, hsame⟩
      obtain ⟨files', source, output, code, hwrites⟩ := hcompiles.writes
      exact hnone _ _ ⟨source, output, code, hwrites, rfl⟩
    · exact .inr ⟨⟨hvalid, htokens, files', source, output, code, hwrites⟩,
        source, output, code, hwrites⟩

theorem content_kept_iff (hinput : words.arguments.head? = some input)
    (h : (runWords console env words : StateM S Report).run files = (report, files')) :
    FileSystem.content? files' (FileSystem.spot files (Path.ofText input).text) =
        FileSystem.content? files (FileSystem.spot files (Path.ofText input).text) ↔
      ¬(words.Compiles files console env input ∧ words.Meets files env input) := by
  rcases runWords_cases hinput h with ⟨hnot, rfl⟩ | ⟨hcompiles, _, output, code, hwrites⟩
  · exact ⟨fun _ hboth => hnot hboth.1, fun _ => rfl⟩
  · obtain ⟨text, hread, rfl⟩ := hwrites.isSource
    have hwrote := Build.wrote_of_write hwrites.written
    by_cases hsame : FileSystem.spot files output.text =
      FileSystem.spot files (Path.ofText input).text
    · have hnew := hwrote.there
      rw [hsame] at hnew
      rw [hnew, FileSystem.content_of_read _ _ _ hread]
      constructor
      · intro heq
        exact absurd (Text.encodeUtf8_inj (Option.some.inj heq)) (targetText_ne hwrites.compiles)
      · intro hnot
        exact absurd ⟨hcompiles, output, hwrites.outputPath, hsame⟩ hnot
    · have hmeets : ¬words.Meets files env input := by
        rintro ⟨output', houtput', hsame'⟩
        obtain rfl := Option.some.inj (hwrites.outputPath.symm.trans houtput')
        exact hsame hsame'
      exact ⟨fun _ hboth => hmeets hboth.2, fun _ => hwrote.elsewhere _ (Ne.symm hsame)⟩

theorem withSuffix_of_outputPath? {output : Path} (hnone : words.has .output = false)
    (h : words.outputPath? env input = some output) :
    (Path.ofText input).withSuffix (Options.suffixFrom env.suffix).1 = .ok output := by
  have hvalue : words.lastValue? .output = none := by
    apply Words.lastValue?_of_notMem
    rw [Words.mem_flags_iff, hnone]
    exact Bool.false_ne_true
  rw [Words.outputPath?, hvalue] at h
  cases hsuffix : (Path.ofText input).withSuffix (Options.suffixFrom env.suffix).1 with
  | error fault =>
    rw [hsuffix] at h
    cases h
  | ok path =>
    rw [hsuffix] at h
    rw [← Option.some.inj h]

theorem endsIn_iff {output : Path} (hnone : words.has .output = false)
    (h : words.outputPath? env input = some output) :
    output = Path.ofText input ↔ (Path.ofText input).EndsIn (Options.suffixFrom env.suffix).1 := by
  obtain ⟨rest, hrest⟩ := suffixFrom_dot env.suffix
  exact Path.withSuffix_eq_self_iff hrest (withSuffix_of_outputPath? hnone h)

theorem eq_input_of_spot (hseparate : FileSystem.Separate files) {source : String} {output : Path}
    (hsource : IsSource files (Path.ofText input) source) (hnone : words.has .output = false)
    (h : words.outputPath? env input = some output)
    (hspot : FileSystem.spot files output.text = FileSystem.spot files (Path.ofText input).text) :
    output = Path.ofText input := by
  obtain ⟨rest, hrest⟩ := suffixFrom_dot env.suffix
  have hsuffix := withSuffix_of_outputPath? hnone h
  obtain ⟨hsome, name, hname, -⟩ := Path.withSuffix_eq_ok hsuffix
  rw [hrest, Path.isSuffix_dot_iff] at hsome
  have hnames : (Path.ofText input).names ≠ [] := by
    intro hnil
    rw [hnil] at hname
    cases hname
  obtain ⟨q, hq, hbeside⟩ :=
    Path.withSuffix_beside (fun _ => Path.isName_of_mem) hnames hrest hsome.1 hsome.2
  obtain rfl : output = q := Except.ok.inj (hsuffix.symm.trans hq)
  obtain ⟨text, hread, -⟩ := hsource
  exact hseparate _ _ _ (fun _ => Path.isName_of_mem) hnames hbeside hread hspot

/-- A run without an output option changes the input file exactly if it gets as far as to write its C
text and the output path leads to that file, whatever the exit code is then. That is so if the input
has the suffix of the output, and only then if no two names in a directory lead to one file. -/
theorem run_input (console : Console) (env : Environment) (arguments : List String)
    (h : (run console env arguments : StateM S Report).run files = (report, files')) :
    (∀ fault, splitWords arguments = .error fault → files' = files) ∧
    ∀ words input, splitWords arguments = .ok words → words.arguments.head? = some input →
      words.has .output = false →
        let place := FileSystem.spot files (Path.ofText input).text
        let suffix := (Options.ofEnvironment env).1.suffix
        (FileSystem.content? files' place = FileSystem.content? files place ↔
          ¬(words.Compiles files console env input ∧ words.Meets files env input)) ∧
        (words.Compiles files console env input → (Path.ofText input).EndsIn suffix →
          words.Meets files env input) ∧
        (FileSystem.Separate files → words.Compiles files console env input →
          words.Meets files env input → (Path.ofText input).EndsIn suffix) := by
  unfold run at h
  constructor
  · intro fault hfault
    simp only [hfault] at h
    exact (Prod.mk.inj h).2.symm
  · intro words input hwords hinput hnone place suffix
    simp only [hwords] at h
    refine ⟨content_kept_iff hinput h, ?_, ?_⟩
    · intro hcompiles hends
      obtain ⟨_, source, output, code, hwrites⟩ := hcompiles.writes
      exact ⟨output, hwrites.outputPath, by rw [(endsIn_iff hnone hwrites.outputPath).2 hends]⟩
    · rintro hseparate hcompiles ⟨output, houtput, hspot⟩
      obtain ⟨_, source, _, code, hwrites⟩ := hcompiles.writes
      exact (endsIn_iff hnone houtput).1
        (eq_input_of_spot hseparate hwrites.isSource hnone houtput hspot)

/-- A name that ends otherwise keeps its content. -/
theorem run_input_print :
    printRun.1.exitCode = 0 ∧
      printRun.2.content? (printFiles.spotOf "a.teeny") =
        printFiles.content? (printFiles.spotOf "a.teeny") := by
  refine ⟨by decide +kernel, ?_⟩
  obtain ⟨hkept, -, hends⟩ := (run_input {} {} ["a.teeny", "-p", "1"]
    (rfl : (run {} {} ["a.teeny", "-p", "1"] : StateM FileTree Report).run printFiles =
      (printRun.1, printRun.2))).2 printWords "a.teeny" splitWords_print rfl rfl
  refine hkept.2 ?_
  rintro ⟨hcompiles, hmeets⟩
  obtain ⟨name, before, rest, hname, hsuffix, -, -, hchars⟩ :=
    hends printFiles.separate hcompiles hmeets
  obtain rfl : "a.teeny" = name := Option.some.inj hname
  obtain rfl : ['c'] = rest := List.tail_eq_of_cons_eq hsuffix
  have hlast := congrArg List.getLast? hchars
  simp at hlast

/-- A source file whose name ends like that of an output is overwritten. -/
theorem run_overwrites_input :
    let files := FileTree.single "a.c" (Text.encodeUtf8 "PRINT 1\n")
    ((run {} {} ["a.c"] : StateM FileTree Report).run files).1.exitCode = 0 ∧
      ((run {} {} ["a.c"] : StateM FileTree Report).run files).2.content? ["a.c"] ≠
        files.content? ["a.c"] := by
  decide +kernel

end CommandLine

end TeenyLang
