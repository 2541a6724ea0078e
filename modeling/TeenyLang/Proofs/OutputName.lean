import TeenyLang.Proofs.CommandRun

set_option autoImplicit false

/-!
# The name of the output

The output is named like the source, with another suffix. It then stands beside the source
(`withSuffix_beside`), provided that the suffix is one. What the environment asks for is only
checked for the dot at its start, which is not enough.
-/
namespace TeenyLang

namespace Path

/-! ## Stems -/

theorem ne_dot_of_notMem {text : List Char} (h : '.' ∉ text) :
    ∀ c ∈ text.reverse, decide (c ≠ '.') = true := by
  intro c hc
  rw [List.mem_reverse] at hc
  exact decide_eq_true fun heq => h (heq ▸ hc)

theorem stem_of_notMem {name : List Char} (h : '.' ∉ name) : stem name = name := by
  have hdrop : name.reverse.dropWhile (· ≠ '.') = [] := by
    simpa using @List.dropWhile_append_of_pos _ _ _ [] (ne_dot_of_notMem h)
  unfold stem
  rw [hdrop]
  simp

/-- The last dot of a name parts stem and suffix, unless it is the first or the last character. -/
theorem stem_append_dot (before : List Char) {rest : List Char} (h : '.' ∉ rest) :
    stem (before ++ '.' :: rest) =
      if rest = [] ∨ before = [] then before ++ '.' :: rest else before := by
  have hall := ne_dot_of_notMem h
  have hreverse : (before ++ '.' :: rest).reverse = rest.reverse ++ '.' :: before.reverse := by
    simp
  unfold stem
  rw [hreverse, List.takeWhile_append_of_pos hall, List.dropWhile_append_of_pos hall]
  simp

theorem exists_last_dot {name : List Char} (h : '.' ∈ name) :
    ∃ before rest, name = before ++ '.' :: rest ∧ '.' ∉ rest := by
  obtain ⟨rest, before, hreverse, hrest⟩ := List.eq_append_cons_of_mem (List.mem_reverse.2 h)
  refine ⟨before.reverse, rest.reverse, ?_, by simpa using hrest⟩
  rw [← List.reverse_reverse name, hreverse]
  simp

theorem stem_subset (name : List Char) : stem name ⊆ name := by
  by_cases h : '.' ∈ name
  · obtain ⟨before, rest, rfl, hrest⟩ := exists_last_dot h
    rw [stem_append_dot before hrest]
    split
    · exact List.Subset.refl _
    · exact List.subset_append_left _ _
  · rw [stem_of_notMem h]
    exact List.Subset.refl _

theorem stem_ne_nil {name : List Char} (h : name ≠ []) : stem name ≠ [] := by
  by_cases hdot : '.' ∈ name
  · obtain ⟨before, rest, rfl, hrest⟩ := exists_last_dot hdot
    rw [stem_append_dot before hrest]
    split
    · exact h
    · next hnot => exact fun hbefore => hnot (.inr hbefore)
  · rwa [stem_of_notMem hdot]

/-- To give a name a suffix with a dot leaves it as it is exactly if it has that suffix, behind some
other character, and the suffix has no second dot. -/
theorem stem_append_eq_iff (name : List Char) {rest : List Char} (hrest : rest ≠ []) :
    stem name ++ '.' :: rest = name ↔
      '.' ∉ rest ∧ ∃ before, before ≠ [] ∧ name = before ++ '.' :: rest := by
  constructor
  · intro h
    have hdot : '.' ∈ name := by
      rw [← h]
      simp
    obtain ⟨before, last, rfl, hlast⟩ := exists_last_dot hdot
    rw [stem_append_dot before hlast] at h
    split at h
    · simp at h
    · next hnot =>
      obtain rfl : rest = last := by simpa using h
      exact ⟨hlast, before, fun hbefore => hnot (.inr hbefore), rfl⟩
  · rintro ⟨hdot, before, hbefore, rfl⟩
    rw [stem_append_dot before hdot, if_neg (by simp [hrest, hbefore])]

/-! ## Suffixes -/

structure Beside (p q : Path) : Prop where
  root : q.root = p.root
  directory : q.names.dropLast = p.names.dropLast
  name : ∃ name, q.names.getLast? = some name ∧ IsName name ∧ name ≠ ".."

theorem isSuffix_dot_iff (rest : List Char) :
    isSuffix ('.' :: rest) = true ↔ rest ≠ [] ∧ '/' ∉ rest := by
  simp [isSuffix]

theorem isName_stem_append {name suffix : String} (h : IsName name) {rest : List Char}
    (hsuffix : suffix.toList = '.' :: rest) (hrest : rest ≠ []) (hslash : '/' ∉ rest) :
    IsName (String.ofList (stem name.toList) ++ suffix) ∧
      String.ofList (stem name.toList) ++ suffix ≠ ".." := by
  have hchars : (String.ofList (stem name.toList) ++ suffix).toList =
      stem name.toList ++ '.' :: rest := by
    rw [String.toList_append, String.toList_ofList, hsuffix]
  have hstem : stem name.toList ≠ [] :=
    stem_ne_nil fun hnil => h.ne_empty (String.toList_eq_nil_iff.1 hnil)
  -- a character of the stem, the dot and a character behind it: no short name is as long
  have hlong : 2 < (String.ofList (stem name.toList) ++ suffix).toList.length := by
    rw [hchars]
    have hone := List.length_pos_iff.2 hstem
    have htwo := List.length_pos_iff.2 hrest
    simp only [List.length_append, List.length_cons]
    omega
  refine ⟨⟨?_, ?_, ?_⟩, ?_⟩
  · intro heq
    simp [heq] at hlong
  · intro heq
    simp [heq] at hlong
  · rw [hchars]
    have hnot : '/' ∉ stem name.toList := fun hmem => h.noSlash (stem_subset _ hmem)
    simp [hnot, hslash]
  · intro heq
    simp [heq] at hlong

theorem withSuffix_beside {p : Path} (h : ∀ name ∈ p.names, IsName name) (hne : p.names ≠ [])
    {suffix : String} {rest : List Char} (hsuffix : suffix.toList = '.' :: rest) (hrest : rest ≠ [])
    (hslash : '/' ∉ rest) : ∃ q, p.withSuffix suffix = .ok q ∧ p.Beside q := by
  have hlast := List.getLast?_eq_some_getLast hne
  have hsome : isSuffix suffix.toList = true := by
    rw [hsuffix, isSuffix_dot_iff]
    exact ⟨hrest, hslash⟩
  obtain ⟨hname, hnotUp⟩ := isName_stem_append (h _ (List.getLast_mem hne)) hsuffix hrest hslash
  unfold withSuffix
  simp only [hsome, hlast]
  exact ⟨_, rfl, rfl, by simp, _, by simp, hname, hnotUp⟩

theorem withSuffix_eq_ok {p q : Path} {suffix : String} (h : p.withSuffix suffix = .ok q) :
    isSuffix suffix.toList = true ∧ ∃ name, p.names.getLast? = some name ∧
      q = { p with names := p.names.dropLast ++ [String.ofList (stem name.toList) ++ suffix] } := by
  unfold withSuffix at h
  split at h
  · cases h
  · next hsuffix =>
    split at h
    · cases h
    · next name hname => exact ⟨by simpa using hsuffix, name, hname, (Except.ok.inj h).symm⟩

/-- The last name of the path has a suffix, and it is this one. -/
def EndsIn (p : Path) (suffix : String) : Prop :=
  ∃ name before rest, p.names.getLast? = some name ∧ suffix.toList = '.' :: rest ∧ '.' ∉ rest ∧
    before ≠ [] ∧ name.toList = before ++ '.' :: rest

theorem withSuffix_eq_self_iff {p q : Path} {suffix : String} {rest : List Char}
    (hsuffix : suffix.toList = '.' :: rest) (h : p.withSuffix suffix = .ok q) :
    q = p ↔ p.EndsIn suffix := by
  obtain ⟨hsome, name, hname, rfl⟩ := withSuffix_eq_ok h
  rw [hsuffix, isSuffix_dot_iff] at hsome
  have hstem := stem_append_eq_iff name.toList hsome.1
  have hchars : (String.ofList (stem name.toList) ++ suffix).toList =
      stem name.toList ++ '.' :: rest := by
    rw [String.toList_append, String.toList_ofList, hsuffix]
  rw [← hchars, String.toList_inj] at hstem
  constructor
  · intro hsame
    have hlast := congrArg (fun q : Path => q.names.getLast?) hsame
    simp only [List.getLast?_concat, hname, Option.some.injEq] at hlast
    obtain ⟨hdot, before, hbefore, hsplit⟩ := hstem.1 hlast
    exact ⟨name, before, rest, hname, hsuffix, hdot, hbefore, hsplit⟩
  · rintro ⟨name', before, rest', hname', hsuffix', hdot, hbefore, hsplit⟩
    obtain rfl : name = name' := Option.some.inj (hname.symm.trans hname')
    obtain rfl : rest = rest' := List.tail_eq_of_cons_eq (hsuffix.symm.trans hsuffix')
    obtain ⟨dirs, hdirs⟩ := List.getLast?_eq_some_iff.1 hname
    rw [hstem.2 ⟨hdot, before, hbefore, hsplit⟩, hdirs, List.dropLast_concat, ← hdirs]

end Path

/-! ## Suffixes from the environment -/

theorem suffixFrom_eq (value : Option String) :
    (Options.suffixFrom value).1 =
      (value.filter fun text => decide (text.toList.head? = some '.')).getD ".c" := by
  unfold Options.suffixFrom
  cases value with
  | none => rfl
  | some text =>
    by_cases hempty : text.isEmpty
    · obtain rfl := String.isEmpty_iff.1 hempty
      decide
    · by_cases hdot : text.toList.head? = some '.' <;> simp [hempty, hdot, Option.filter_some]

/-- The value starts like a suffix, and no name can end in it. -/
def Environment.Misleading (value : String) : Prop :=
  ∃ rest, value.toList = '.' :: rest ∧ (rest = [] ∨ '/' ∈ rest)

theorem suffixFrom_of_misleading {value : String} (h : Environment.Misleading value) :
    (Options.suffixFrom (some value)).1 = value ∧ Path.isSuffix value.toList = false := by
  obtain ⟨rest, hvalue, hrest⟩ := h
  constructor
  · simp [suffixFrom_eq, hvalue, Option.filter_some]
  · rw [hvalue, Bool.eq_false_iff, ne_eq, Path.isSuffix_dot_iff]
    rintro ⟨hne, hslash⟩
    exact hrest.elim hne hslash

theorem suffixFrom_cases (value : Option String) :
    (Options.suffixFrom value).1 = ".c" ∨
      ∃ text, value = some text ∧ (Options.suffixFrom value).1 = text ∧
        ∃ rest, text.toList = '.' :: rest := by
  rw [suffixFrom_eq]
  cases value with
  | none => exact .inl rfl
  | some text =>
    rw [Option.filter_some]
    split
    · next hdot =>
      exact .inr ⟨text, rfl, rfl, List.head?_eq_some_iff.1 (of_decide_eq_true hdot)⟩
    · exact .inl rfl

theorem suffixFrom_dot (value : Option String) :
    ∃ rest, (Options.suffixFrom value).1.toList = '.' :: rest := by
  rcases suffixFrom_cases value with hpreset | ⟨text, -, hsame, hdot⟩
  · exact ⟨['c'], by rw [hpreset]; rfl⟩
  · rwa [hsame]

theorem suffixFrom_of_not_misleading {value : Option String}
    (h : ∀ text, value = some text → ¬Environment.Misleading text) :
    ∃ rest, (Options.suffixFrom value).1.toList = '.' :: rest ∧ rest ≠ [] ∧ '/' ∉ rest := by
  rcases suffixFrom_cases value with hpreset | ⟨text, hvalue, hsame, rest, htext⟩
  · exact ⟨['c'], by rw [hpreset]; rfl, by decide⟩
  · have hnot : ¬(rest = [] ∨ '/' ∈ rest) := fun hrest => h text hvalue ⟨rest, htext, hrest⟩
    exact ⟨rest, hsame ▸ htext, not_or.1 hnot⟩

/-- The options in an environment are those that it asks for as far as they fit, and the presets
else. With them every source file has an output path, beside it, unless the value for the suffix is
a dot alone or a dot and more with a slash: with such a value no source file has one. -/
theorem outputPath_ofEnvironment (env : Environment) {text : String}
    (h : (Path.ofText text).names ≠ []) :
    let options := (Options.ofEnvironment env).1
    0 ≤ options.precision ∧
      options.precision =
        ((env.precision.bind Text.integer?).filter fun n => decide (0 ≤ n)).getD 2 ∧
      options.suffix =
        (env.suffix.filter fun value => decide (value.toList.head? = some '.')).getD ".c" ∧
      ((∀ value, env.suffix = some value → ¬Environment.Misleading value) →
        ∃ output, Build.outputPath options (Path.ofText text) = .ok output ∧
          (Path.ofText text).Beside output) ∧
      ∀ value, env.suffix = some value → Environment.Misleading value →
        Build.outputPath options (Path.ofText text) =
          .error (.suffix (.invalidSuffix value)) := by
  intro options
  have hprecision : options.precision =
      ((env.precision.bind Text.integer?).filter fun n => decide (0 ≤ n)).getD 2 := by
    refine (CommandLine.precisionFrom_eq env.precision).trans ?_
    cases env.precision.bind Text.integer? with
    | none => rfl
    | some n => by_cases hn : 0 ≤ n <;> simp [hn, Option.filter_some]
  have hsuffix : options.suffix = (Options.suffixFrom env.suffix).1 := rfl
  refine ⟨?_, hprecision, hsuffix.trans (suffixFrom_eq env.suffix), ?_, ?_⟩
  · rw [hprecision]
    cases env.precision.bind Text.integer? with
    | none => decide
    | some n => by_cases hn : 0 ≤ n <;> simp [hn, Option.filter_some]
  · intro hnot
    obtain ⟨rest, hrest, hne, hslash⟩ := suffixFrom_of_not_misleading hnot
    obtain ⟨output, houtput, hbeside⟩ :=
      Path.withSuffix_beside (fun _ => Path.isName_of_mem) h hrest hne hslash
    refine ⟨output, ?_, hbeside⟩
    rw [Build.outputPath, hsuffix, houtput]
  · intro value hvalue hmisleading
    obtain ⟨hsame, hno⟩ := suffixFrom_of_misleading hmisleading
    rw [Build.outputPath, hsuffix, hvalue, hsame, Path.withSuffix, hno]
    rfl

/-- Precision and suffix both from the environment, for a name with two dots. -/
theorem outputPath_ofEnvironment_twoDots :
    let env : Environment := ⟨some " +5", some ".h"⟩
    (Path.ofText "lib/a.b.teeny").names ≠ [] ∧ (Options.ofEnvironment env).1.precision = 5 ∧
      ∃ output, Build.outputPath (Options.ofEnvironment env).1 (Path.ofText "lib/a.b.teeny") =
        .ok output ∧ (Path.ofText "lib/a.b.teeny").Beside output := by
  intro env
  have hnames : (Path.ofText "lib/a.b.teeny").names ≠ [] := by decide +kernel
  have hnot : ∀ value, env.suffix = some value → ¬Environment.Misleading value := by
    rintro _ hvalue ⟨rest, hrest, hbad⟩
    cases hvalue
    obtain rfl : ['h'] = rest := by simpa using hrest
    simp at hbad
  obtain ⟨-, hprecision, -, hbeside, -⟩ := outputPath_ofEnvironment env hnames
  exact ⟨hnames, hprecision.trans (by decide +kernel), hbeside hnot⟩

/-- A dot alone is taken for a suffix, and then no source file has an output path. -/
theorem dot_taken_for_suffix :
    (Options.ofEnvironment ⟨none, some "."⟩).1.suffix = "." ∧
      Build.outputPath (Options.ofEnvironment ⟨none, some "."⟩).1 (Path.ofText "a.teeny") =
        .error (.suffix (.invalidSuffix ".")) := by
  constructor
  · decide +kernel
  · rfl

end TeenyLang
