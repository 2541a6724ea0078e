import TeenyLang.Path

set_option autoImplicit false

/-!
# The text of a path

A path is found again in its own text (`ofText_text`), so to read a text as a path a second time
changes nothing.
-/
namespace TeenyLang.Path

theorem splitOn_cons (c : Char) (text : List Char) :
    (c :: text).splitOn '/' =
      if c = '/' then [] :: text.splitOn '/' else (text.splitOn '/').modifyHead (c :: ·) := by
  rw [List.splitOn, List.splitOnP_cons_eq_if_modifyHead]
  simp only [beq_iff_eq]
  rfl

theorem pieces_eq (piece text : List Char) :
    pieces piece text = (text.splitOn '/').modifyHead (piece.reverse ++ ·) := by
  fun_induction pieces piece text with
  | case1 piece => simp
  | case2 piece rest ih =>
    rw [splitOn_cons, if_pos rfl, ih]
    cases rest.splitOn '/' <;> simp
  | case3 piece c rest hslash ih =>
    rw [splitOn_cons, if_neg hslash, ih]
    cases rest.splitOn '/' <;> simp

theorem components_eq_splitOn (text : String) :
    components text = (text.toList.splitOn '/').map String.ofList := by
  rw [components, pieces_eq]
  cases hsplit : text.toList.splitOn '/' <;> rfl

/-- A text is its last component behind all others. -/
theorem components_eq_concat (text : String) :
    components text = (components text).dropLast ++ [(components text).getLast?.getD ""] := by
  have hne : components text ≠ [] := by
    simp [components_eq_splitOn, List.splitOn_ne_nil]
  rw [List.getLast?_eq_some_getLast hne, Option.getD_some, List.dropLast_concat_getLast]

theorem slash_notMem_pieces {piece text : List Char} (h : '/' ∉ piece) :
    ∀ part ∈ pieces piece text, '/' ∉ part := by
  fun_induction pieces piece text with
  | case1 piece => simpa using h
  | case2 piece rest ih => simpa [h] using ih (List.not_mem_nil)
  | case3 piece c rest hslash ih => exact ih (by simp [h, Ne.symm hslash])

structure IsName (name : String) : Prop where
  ne_empty : name ≠ ""
  ne_dot : name ≠ "."
  noSlash : '/' ∉ name.toList

theorem isName_of_mem {text name : String} (h : name ∈ (ofText text).names) : IsName name := by
  obtain ⟨hmem, hkept⟩ := List.mem_filter.1 h
  obtain ⟨part, hpart, rfl⟩ := List.mem_map.1 hmem
  have hslash := slash_notMem_pieces (List.not_mem_nil) part hpart
  constructor <;> simp_all

theorem components_join {names : List String} (h : ∀ name ∈ names, IsName name) (hne : names ≠ []) :
    components ("/".intercalate names) = names := by
  have hparts : ∀ part ∈ names.map String.toList, '/' ∉ part := by
    rintro _ hpart
    obtain ⟨name, hname, rfl⟩ := List.mem_map.1 hpart
    exact (h name hname).noSlash
  have hjoin : ("/".intercalate names).toList = ['/'].intercalate (names.map String.toList) :=
    String.toList_intercalate
  rw [components_eq_splitOn, hjoin, List.splitOn_intercalate _ hparts (by simpa using hne), List.map_map]
  simp

theorem components_slash (text : String) : components ("/" ++ text) = "" :: components text := by
  have htext : ("/" ++ text).toList = '/' :: text.toList := by
    rw [String.toList_append]
    rfl
  rw [components, htext]
  rfl

/-- The joined names do not start with a slash. -/
theorem join_head {name : String} (h : IsName name) (names : List String) :
    ∃ c rest, c ≠ '/' ∧ ("/".intercalate (name :: names)).toList = c :: rest := by
  cases hname : name.toList with
  | nil => exact absurd (String.toList_eq_nil_iff.1 hname) h.ne_empty
  | cons c chars =>
    have hc : c ≠ '/' := fun heq => h.noSlash (by simp [hname, heq])
    rw [String.toList_intercalate, List.map_cons, hname]
    cases names with
    | nil => exact ⟨c, chars, hc, by simp⟩
    | cons second names => exact ⟨c, _, hc, by simp [List.intercalate]; rfl⟩

theorem rootOf_append (root : PathRoot) {c : Char} (hc : c ≠ '/') (rest : List Char) :
    rootOf ((rootText root).toList ++ c :: rest) = root := by
  cases root with
  | here => simp [rootText, rootOf, hc]
  | slash => simp [rootText, rootOf, hc]
  | doubleSlash => simp [rootText, rootOf, hc]

/-- The components before the names, all of them empty. -/
def rootComponents : PathRoot → List String
  | .here => []
  | .slash => [""]
  | .doubleSlash => ["", ""]

theorem components_root (root : PathRoot) {names : List String} (h : ∀ name ∈ names, IsName name)
    (hne : names ≠ []) :
    components (rootText root ++ "/".intercalate names) = rootComponents root ++ names := by
  cases root with
  | here =>
    rw [rootText, String.empty_append, components_join h hne]
    rfl
  | slash =>
    rw [rootText, components_slash, components_join h hne]
    rfl
  | doubleSlash =>
    have htwo : "//" ++ "/".intercalate names = "/" ++ ("/" ++ "/".intercalate names) := by
      rw [← String.append_assoc]
      rfl
    rw [rootText, htwo, components_slash, components_slash, components_join h hne]
    rfl

/-- The names are all that is left of the components when the root is written before them. -/
theorem kept_components (root : PathRoot) {names : List String} (h : ∀ name ∈ names, IsName name)
    (hne : names ≠ []) :
    (components (rootText root ++ "/".intercalate names)).filter
        (fun name => !(name.isEmpty || name == ".")) = names := by
  have hkept : names.filter (fun name => !(name.isEmpty || name == ".")) = names := by
    refine List.filter_eq_self.2 fun name hname => ?_
    simp [(h name hname).ne_empty, (h name hname).ne_dot]
  rw [components_root root h hne, List.filter_append, hkept]
  cases root <;> rfl

theorem text_of_names {p : Path} (hne : p.names ≠ []) :
    p.text = rootText p.root ++ "/".intercalate p.names := by
  simp [text, hne]

theorem components_text {p : Path} (h : ∀ name ∈ p.names, IsName name) (hne : p.names ≠ []) :
    components p.text = rootComponents p.root ++ p.names := by
  rw [text_of_names hne, components_root p.root h hne]

theorem ofText_text {p : Path} (h : ∀ name ∈ p.names, IsName name) : ofText p.text = p := by
  obtain ⟨root, names⟩ := p
  cases names with
  | nil => cases root <;> decide
  | cons name names =>
    obtain ⟨c, rest, hc, hhead⟩ := join_head (h name List.mem_cons_self) names
    have htext := @text_of_names ⟨root, name :: names⟩ (List.cons_ne_nil _ _)
    rw [ofText, htext, kept_components root h (List.cons_ne_nil _ _), String.toList_append, hhead,
      rootOf_append root hc]

/-- To read a text as a path a second time changes nothing. -/
theorem ofText_text_ofText (text : String) : ofText (ofText text).text = ofText text :=
  ofText_text fun _ => isName_of_mem

end TeenyLang.Path
