import TeenyLang.Build
import TeenyLang.Proofs.PathText
import TeenyLang.Proofs.Utf8

set_option autoImplicit false

/-!
# File systems

What a build relies on when its files are in a state: to look and to read leaves the state alone,
and a write either fails, and leaves it alone too, or changes the content at one spot. A path leads
to a spot, and several paths may lead to the same one.
-/
namespace TeenyLang

namespace FileAccess

variable {S : Type} [FileAccess (StateM S)]

def statusIn (files : S) (path : String) : FileStatus :=
  ((status path : StateM S FileStatus).run files).1

def readIn (files : S) (path : String) : Except FileFault ByteArray :=
  ((read path : StateM S (Except FileFault ByteArray)).run files).1

end FileAccess

open FileAccess (statusIn readIn)

class FileSystem (S : Type) extends FileAccess (StateM S) where
  /-- Where a file may stand. -/
  Spot : Type
  /-- Where the file that a path names stands, or would be put. -/
  spot : S → String → Spot
  /-- The content of the file at a spot, if there is one. -/
  content? : S → Spot → Option ByteArray
  status_run (files : S) (path : String) :
    (status path).run files = (statusIn files path, files)
  read_run (files : S) (path : String) : (read path).run files = (readIn files path, files)
  content_of_read (files : S) (path : String) (content : ByteArray) :
    readIn files path = .ok content → content? files (spot files path) = some content
  status_of_read (files : S) (path : String) (content : ByteArray) :
    readIn files path = .ok content → statusIn files path ≠ .missing
  failed_write (files files' : S) (path : String) (content : ByteArray) (fault : FileFault) :
    (write path content).run files = (.error fault, files') → files' = files
  content_of_write (files files' : S) (path : String) (content : ByteArray) :
    (write path content).run files = (.ok (), files') →
      content? files' (spot files path) = some content
  other_of_write (files files' : S) (path : String) (content : ByteArray) (other : Spot) :
    (write path content).run files = (.ok (), files') → other ≠ spot files path →
      content? files' other = content? files other

/-! ## Trees of files -/

namespace FileTree

variable {tree tree' : FileTree} {path : String} {content : ByteArray}

theorem home_insert (tree : FileTree) (names : List String) (node : FileNode) :
    (tree.insert names node).home = tree.home := by
  unfold insert
  split <;> rfl

theorem lookup_cons_eq (entry : List String × FileNode) (nodes : List (List String × FileNode))
    (names : List String) :
    (entry :: nodes).lookup names =
      if names = entry.1 then some entry.2 else nodes.lookup names := by
  rw [List.lookup_cons]
  by_cases h : names = entry.1
  · simp [h]
  · rw [if_neg h, beq_eq_false_iff_ne.2 h]

theorem lookup_replace (nodes : List (List String × FileNode)) (names other : List String)
    (node : FileNode) :
    (nodes.map fun entry => if entry.1 = names then (names, node) else entry).lookup other =
      if other = names ∧ (nodes.lookup names).isSome then some node else nodes.lookup other := by
  induction nodes with
  | nil => simp
  | cons entry nodes ih =>
    rw [List.map_cons, lookup_cons_eq, lookup_cons_eq, lookup_cons_eq, ih]
    grind

theorem lookup_insert (tree : FileTree) (names other : List String) (node : FileNode) :
    (tree.insert names node).nodes.lookup other =
      if other = names then some node else tree.nodes.lookup other := by
  unfold insert
  split
  case isTrue hthere => simp only [lookup_replace, hthere, and_true]
  case isFalse hmissing =>
    rw [Option.not_isSome_iff_eq_none] at hmissing
    by_cases hother : other = names
    · simp [hother, List.lookup_append, hmissing]
    · simp [hother, List.lookup_append, lookup_cons_eq]

/-- To put a node where no directory stands changes nothing elsewhere. -/
theorem node?_insert {names : List String} (h : tree.node? names ≠ some .directory)
    (node : FileNode) (other : List String) :
    (tree.insert names node).node? other = if other = names then some node else tree.node? other := by
  -- the working directory and those above it are directories whatever the nodes are
  have hnames : names.isPrefixOf tree.home = false := by
    cases hprefix : names.isPrefixOf tree.home with
    | false => rfl
    | true =>
      refine absurd ?_ h
      rw [node?, if_pos hprefix]
  unfold node?
  rw [home_insert, lookup_insert]
  by_cases hother : other = names
  · simp [hother, hnames]
  · simp only [hother, if_false]

theorem walk_append (tree : FileTree) (names before after : List String) :
    tree.walk names (before ++ after) =
      (tree.walk names before).bind fun place => tree.walk place after := by
  fun_induction tree.walk names before with
  | case1 names => rfl
  | case2 names component rest hnode => simp only [List.cons_append, walk, hnode, Except.bind]
  | case3 names component rest file hnode => simp only [List.cons_append, walk, hnode, Except.bind]
  | case4 names component rest hnode hskip ih =>
    simp only [List.cons_append, walk, hnode, hskip, if_true]
    exact ih
  | case5 names component rest hnode hskip hup ih =>
    simp only [List.cons_append, walk, hnode, hskip, hup, if_true]
    exact ih
  | case6 names component rest hnode hskip hup hlong =>
    simp only [List.cons_append, walk, hnode, hskip, hup, hlong, if_true, Except.bind]
    rfl
  | case7 names component rest hnode hskip hup hlong hnone =>
    simp only [List.cons_append, walk, hnode, hskip, hup, hlong, hnone, if_true, if_false, Except.bind]
    rfl
  | case8 names component rest hnode hskip hup hlong hnone ih =>
    simp only [List.cons_append, walk, hnode, hskip, hup, hlong, hnone, if_false]
    exact ih

def spotOf (tree : FileTree) (path : String) : List String :=
  let components := Path.components path
  match tree.resolve path with
  | .ok names => names
  | .error _ =>
    ((tree.walk (tree.startOf path) components.dropLast).toOption.getD []) ++
      [components.getLast?.getD ""]

/-- A path that ends in a plain name leads to that name below the directory before it. -/
theorem spotOf_eq {place : List String}
    (hplace : tree.walk (tree.startOf path) (Path.components path).dropLast = .ok place)
    (hnode : tree.node? place = some .directory)
    (hlast : (Path.components path).getLast?.getD "" ∉ ["", ".", ".."]) :
    tree.spotOf path = place ++ [(Path.components path).getLast?.getD ""] := by
  generalize hname : (Path.components path).getLast?.getD "" = last at hlast
  have hplain : (last.isEmpty || last == ".") = false ∧ (last == "..") = false := by
    simpa [and_assoc] using hlast
  have hresolve : tree.resolve path = (checkPath path).bind fun _ => tree.walk place [last] := by
    unfold resolve
    rw [Path.components_eq_concat, walk_append, hplace, hname]
    rfl
  unfold spotOf
  simp only [hresolve, walk, hnode, hplain, hplace, hname, Bool.false_eq_true, if_false]
  -- where the last name is not there yet, the walk fails at it and only at it
  split
  case h_1 names hok =>
    cases hcheck : checkPath path with
    | error fault =>
      rw [hcheck] at hok
      cases hok
    | ok =>
      simp only [hcheck, Except.bind] at hok
      split at hok
      · cases hok
      · split at hok
        · cases hok
        · exact (Except.ok.inj hok).symm
  case h_2 => rfl

theorem writeAt_eq_ok (h : tree.writeAt path content = .ok tree') :
    tree.node? (tree.spotOf path) ≠ some .directory ∧
      tree' = tree.insert (tree.spotOf path) (.file content) := by
  unfold writeAt at h
  simp only [bind, Except.bind, pure, Except.pure] at h
  split at h
  case h_1 => cases h
  case h_2 =>
  split at h
  case h_1 => cases h
  case h_2 place hplace =>
  split at h
  case h_1 => cases h
  case h_2 => cases h
  case h_3 hnode =>
  split at h
  case isTrue => cases h
  case isFalse hlast =>
  rw [spotOf_eq hplace hnode (by simpa using hlast)]
  split at h
  case isTrue => cases h
  case isFalse =>
  split at h
  case h_1 => cases h
  case h_2 hfree => exact ⟨hfree, (Except.ok.inj h).symm⟩

theorem readAt_eq_ok (h : tree.readAt path = .ok content) :
    ∃ names, tree.resolve path = .ok names ∧ tree.node? names = some (.file content) := by
  unfold readAt at h
  simp only [bind, Except.bind] at h
  split at h
  case h_1 => cases h
  case h_2 names hresolve =>
  split at h
  case h_1 hnode =>
    split at h
    case isTrue => cases h
    case isFalse => exact ⟨names, hresolve, Except.ok.inj h ▸ hnode⟩
  case h_2 => cases h
  case h_3 => cases h

def content? (tree : FileTree) (names : List String) : Option ByteArray :=
  match tree.node? names with
  | some (.file content) => some content
  | _ => none

theorem write_run (tree : FileTree) (path : String) (content : ByteArray) :
    (FileAccess.write path content : StateM FileTree (Except FileFault Unit)).run tree =
      match tree.writeAt path content with
      | .ok tree' => (.ok (), tree')
      | .error fault => (.error fault, tree) := by
  simp only [FileAccess.write, StateT.run_bind, StateT.run_get, pure_bind]
  cases tree.writeAt path content <;> rfl

/-- A write that succeeds changes the content of one file. -/
theorem content?_of_write
    (h : (FileAccess.write path content : StateM FileTree (Except FileFault Unit)).run tree =
      (.ok (), tree')) (names : List String) :
    tree'.content? names = if names = tree.spotOf path then some content else tree.content? names := by
  rw [write_run] at h
  split at h <;> cases h
  case h_1 hwrite =>
  obtain ⟨hfree, rfl⟩ := writeAt_eq_ok hwrite
  unfold content?
  rw [node?_insert hfree]
  by_cases hnames : names = tree.spotOf path
  · simp only [hnames, if_true]
  · simp only [hnames, if_false]

instance : FileSystem FileTree where
  Spot := List String
  spot := spotOf
  content? := content?
  status_run _ _ := rfl
  read_run _ _ := rfl
  content_of_read tree path content h := by
    obtain ⟨names, hresolve, hnode⟩ := readAt_eq_ok h
    simp only [spotOf, hresolve, content?, hnode]
  status_of_read tree path content h := by
    obtain ⟨names, hresolve, hnode⟩ := readAt_eq_ok h
    change tree.statusAt path ≠ .missing
    simp only [statusAt, hresolve, hnode]
    split <;> simp
  failed_write tree tree' path content fault h := by
    rw [write_run] at h
    split at h <;> cases h
    rfl
  content_of_write tree tree' path content h := by
    rw [content?_of_write h, if_pos rfl]
  other_of_write tree tree' path content other h hother := by
    rw [content?_of_write h, if_neg hother]

def single (name : String) (content : ByteArray) : FileTree :=
  { nodes := [([name], .file content)] }

end FileTree

/-! ## Builds -/

theorem run_bind_of_run {S α β : Type} {x : StateM S α} {a : α} {s s' : S} (h : x.run s = (a, s'))
    (f : α → StateM S β) : (x >>= f).run s = (f a).run s' := by
  rw [StateT.run_bind, h]
  rfl

namespace Build

variable {S : Type} [FileSystem S]

def sourceIn (files : S) (path : Path) : Except Failure String :=
  match readIn files path.text with
  | .ok content => sourceText content
  | .error fault => .error (.file path.text fault)

theorem sourceIn_ne_rejected {files : S} {path : Path} {d : Diagnostic} :
    sourceIn files path ≠ .error (.rejected d) := by
  unfold sourceIn sourceText
  split
  · split <;> nofun
  · nofun

theorem readSource_run (path : Path) (files : S) :
    (readSource path : StateM S (Except Failure String)).run files = (sourceIn files path, files) := by
  unfold readSource sourceIn
  rw [run_bind_of_run (FileSystem.read_run files path.text)]
  cases readIn files path.text <;> rfl

theorem compileFile_run (options : Options) (path : String) (files : S) :
    (compileFile options path : StateM S (Except Failure Compilation × List LogEntry)).run files =
      (match statusIn files (Path.ofText path).text with
        | .missing => (.error (.sourceMissing path), [])
        | _ =>
          match sourceIn files (Path.ofText path) with
          | .error failure => (.error failure, [])
          | .ok source => (.ok (compile options source path).1, (compile options source path).2),
        files) := by
  unfold compileFile
  rw [run_bind_of_run (FileSystem.status_run files _)]
  cases statusIn files (Path.ofText path).text with
  | missing => rfl
  | file | unreadable | directory | unknown =>
    simp only [run_bind_of_run (readSource_run (Path.ofText path) files)]
    cases sourceIn files (Path.ofText path) <;> rfl

theorem sourceText_eq_ok_iff {content : ByteArray} {source : String} :
    sourceText content = .ok source ↔
      ∃ text, content = Text.encodeUtf8 text ∧
        source = String.ofList (Text.unifyNewlines text.toList) := by
  unfold sourceText
  constructor
  · intro h
    split at h <;> cases h
    case h_1 chars hchars =>
    refine ⟨String.ofList chars, Text.decodeUtf8_eq_ok_iff.1 hchars, ?_⟩
    rw [String.toList_ofList]
  · rintro ⟨text, rfl, rfl⟩
    have hread : Text.decodeUtf8 (Text.encodeUtf8 text) = .ok text.toList :=
      Text.decodeUtf8_eq_ok_iff.2 (by rw [String.ofList_toList])
    rw [hread]

/-- The file at `path` holds the UTF-8 form of a text, and that text with newlines as its only line
ends is `source`. -/
def IsSource (files : S) (path : Path) (source : String) : Prop :=
  ∃ text, readIn files path.text = .ok (Text.encodeUtf8 text) ∧
    source = String.ofList (Text.unifyNewlines text.toList)

theorem sourceIn_eq_ok_iff {files : S} {path : Path} {source : String} :
    sourceIn files path = .ok source ↔ IsSource files path source := by
  unfold sourceIn IsSource
  cases readIn files path.text with
  | error fault => simp
  | ok content => simpa using sourceText_eq_ok_iff

theorem compileFile_of_isSource {path source : String} {files : S}
    (h : IsSource files (Path.ofText path) source) (options : Options) :
    (compileFile options path : StateM S (Except Failure Compilation × List LogEntry)).run files =
      ((.ok (compile options source path).1, (compile options source path).2), files) := by
  have hsource := sourceIn_eq_ok_iff.2 h
  obtain ⟨text, hread, -⟩ := h
  have hstatus := FileSystem.status_of_read files _ _ hread
  rw [compileFile_run, hsource]
  split
  case h_1 hmissing => exact absurd hmissing hstatus
  case h_2 => rfl

theorem isSource_unique {path : Path} {source source' : String} {files : S}
    (h : IsSource files path source) (h' : IsSource files path source') : source = source' :=
  Except.ok.inj ((sourceIn_eq_ok_iff.2 h).symm.trans (sourceIn_eq_ok_iff.2 h'))

/-- Without a source nothing is compiled. -/
theorem compileFile_of_not_isSource {path : String} {files : S}
    (h : ∀ source, ¬IsSource files (Path.ofText path) source) (options : Options) :
    ∃ failure, (∀ d, failure ≠ .rejected d) ∧
      (compileFile options path : StateM S (Except Failure Compilation × List LogEntry)).run files =
        ((.error failure, []), files) := by
  rw [compileFile_run]
  split
  case h_1 => exact ⟨.sourceMissing path, nofun, rfl⟩
  case h_2 =>
    cases hsource : sourceIn files (Path.ofText path) with
    | ok source => exact absurd (sourceIn_eq_ok_iff.1 hsource) (h source)
    | error failure =>
      refine ⟨failure, ?_, rfl⟩
      rintro d rfl
      exact sourceIn_ne_rejected hsource

/-- The content at `path` is new, and all else is as it was. -/
structure Wrote (files files' : S) (path : String) (content : ByteArray) : Prop where
  there : FileSystem.content? files' (FileSystem.spot files path) = some content
  elsewhere : ∀ spot, spot ≠ FileSystem.spot files path →
    FileSystem.content? files' spot = FileSystem.content? files spot

theorem writeOutput_of_rejected {compilation : Compilation} {d : Diagnostic}
    (h : compilation.verdict = .rejected d) (path : Path) (files : S) :
    (writeOutput compilation path : StateM S (Except Failure Unit × List LogEntry)).run files =
      ((.error (.rejected d), []), files) := by
  simp only [writeOutput, h]
  rfl

theorem writeOutput_of_encodable {compilation : Compilation} {code : String}
    (h : compilation.verdict = .accepted code) (hcode : ∀ c ∈ code.toList, c ∉ compilation.lone)
    (path : Path) (files : S) :
    ∃ log, (writeOutput compilation path : StateM S (Except Failure Unit × List LogEntry)).run
        files =
      match (FileAccess.write path.text (Text.encodeUtf8 code) :
          StateM S (Except FileFault Unit)).run files with
      | (.ok (), files') => ((.ok (), log), files')
      | (.error fault, files') => ((.error (.file path.text fault), []), files') := by
  have houtput : compilation.output = code := by simp only [Compilation.output, h]
  simp only [writeOutput, h, houtput, Text.encodeStrict_eq_ok hcode]
  cases hwrite : (FileAccess.write path.text (Text.encodeUtf8 code) : StateM S (Except FileFault Unit)).run
    files with
  | mk result files' =>
  rw [run_bind_of_run hwrite]
  cases result with
  | error fault => exact ⟨[], rfl⟩
  | ok => exact ⟨_, rfl⟩

/-- A text with a lone surrogate is not written, but the file is emptied. -/
theorem writeOutput_of_lone {compilation : Compilation} {code : String}
    (h : compilation.verdict = .accepted code) (hcode : ¬∀ c ∈ code.toList, c ∉ compilation.lone)
    (path : Path) (files : S) :
    ∃ error, (writeOutput compilation path : StateM S (Except Failure Unit × List LogEntry)).run
        files =
      match (FileAccess.write path.text .empty : StateM S (Except FileFault Unit)).run files with
      | (.ok (), files') => ((.error (.unencodable error), []), files')
      | (.error fault, files') => ((.error (.file path.text fault), []), files') := by
  have houtput : compilation.output = code := by simp only [Compilation.output, h]
  obtain ⟨error, herror⟩ := Text.encodeStrict_eq_error hcode
  refine ⟨error, ?_⟩
  simp only [writeOutput, h, houtput, herror]
  cases hwrite : (FileAccess.write path.text .empty : StateM S (Except FileFault Unit)).run files with
  | mk result files' =>
  rw [run_bind_of_run hwrite]
  cases result <;> rfl

theorem wrote_of_write {path : String} {content : ByteArray} {files files' : S}
    (h : (FileAccess.write path content : StateM S (Except FileFault Unit)).run files =
      (.ok (), files')) : Wrote files files' path content :=
  ⟨FileSystem.content_of_write _ _ _ _ h, fun spot => FileSystem.other_of_write _ _ _ _ spot h⟩

end Build

theorem compile_lone (options : Options) (source file : String) :
    (compile options source file).1.lone = [] := by
  unfold compile
  split
  · rfl
  · split <;> rfl

theorem compile_verdict (options : Options) (source file : String) :
    (compile options source file).1.verdict =
      match targetText source file options.precision with
      | .ok code => .accepted code
      | .error d => .rejected d := by
  unfold compile targetText
  simp only [bind, Except.bind]
  cases Parser.ofSource source file options.precision with
  | error d => rfl
  | ok p =>
    simp only
    cases Parser.program p <;> rfl

end TeenyLang
