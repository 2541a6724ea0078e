import TeenyLang.Parser.Statement
import TeenyLang.Proofs.Translation
import Mathlib.Data.List.Induction
import Mathlib.Data.List.Nodup

set_option autoImplicit false

/-!
# Records

What a parser has noted down about the program, without the tokens ahead. `Record.use` is what
becomes of a record at one use of a name, and `Record.useAll` goes through many. It ends well
exactly if reads are declared and labels differ, and then the tables hold the names of the
uses, each in the order of its first use.
-/
namespace TeenyLang

open Grammar

structure Record where
  precision : Int
  lines : List String
  variableNames : List String
  labels : List (String × Location)
  jumps : List (String × Location)
  listing : Target.Listing

def Parser.record {σ : Type} (p : Parser σ) : Record :=
  ⟨p.precision, p.lines, p.variableNames, p.labels, p.jumps, p.listing⟩

namespace Record

def fault (r : Record) (token : Token) (cause : Cause) : Diagnostic :=
  ⟨cause, some token.location,
    if 0 < token.location.line then r.lines[token.location.line.toNat - 1]? else none⟩

def declare (r : Record) (name : String) : Record :=
  if r.variableNames.contains name then r
  else
    { r with
      variableNames := r.variableNames ++ [name]
      listing := r.listing.declare ("float " ++ Target.name name ++ ";") }

def similar (r : Record) (name : String) : List String :=
  Text.closeMatches name (r.variableNames.mergeSort fun x y => decide (x ≤ y))

def use (r : Record) (u : Use) : Except Diagnostic Record :=
  match u.role with
  | .target => .ok (r.declare u.name)
  | .read =>
    if r.variableNames.contains u.name then .ok r
    else .error (r.fault u.token (.undeclaredVariable u.name (r.similar u.name)))
  | .label =>
    match r.labels.lookup u.name with
    | some first => .error (r.fault u.token (.duplicateLabel u.name (some first)))
    | none => .ok { r with labels := r.labels ++ [(u.name, u.token.location)] }
  | .jump =>
    match r.jumps.lookup u.name with
    | some _ => .ok r
    | none => .ok { r with jumps := r.jumps ++ [(u.name, u.token.location)] }

def useAll (r : Record) (uses : List Use) : Except Diagnostic Record :=
  uses.foldlM use r

def write (code : String) (r : Record) : Record :=
  { r with listing := r.listing.code code }

def run (r : Record) (uses : List Use) (code : String) : Except Diagnostic Record :=
  (r.useAll uses).map (write code)

theorem use_write (r : Record) (u : Use) (code : String) :
    (r.write code).use u = (r.use u).map (write code) := by
  cases h : u.role with
  | target =>
    by_cases hn : r.variableNames.contains u.name = true <;>
      simp only [use, h, declare, write, hn, ↓reduceIte, Bool.false_eq_true] <;> rfl
  | read =>
    by_cases hn : r.variableNames.contains u.name = true <;>
      simp only [use, h, write, hn, ↓reduceIte, Bool.false_eq_true] <;> rfl
  | label => cases hl : r.labels.lookup u.name <;> simp only [use, h, write, hl] <;> rfl
  | jump => cases hl : r.jumps.lookup u.name <;> simp only [use, h, write, hl] <;> rfl

theorem useAll_write (r : Record) (uses : List Use) (code : String) :
    (r.write code).useAll uses = (r.useAll uses).map (write code) := by
  induction uses generalizing r with
  | nil => rfl
  | cons u uses ih =>
    simp only [useAll, List.foldlM_cons, use_write] at ih ⊢
    cases r.use u with
    | error d => rfl
    | ok r' => exact ih r'

theorem use_precision {r r' : Record} {u : Use} (h : r.use u = .ok r') :
    r'.precision = r.precision := by
  unfold use at h
  split at h
  · cases h
    unfold declare
    split <;> rfl
  all_goals split at h <;> cases h <;> rfl

theorem useAll_append (r : Record) (us vs : List Use) :
    r.useAll (us ++ vs) = (r.useAll us).bind fun r' => r'.useAll vs := by
  simp only [useAll, List.foldlM_append]
  rfl

theorem write_write (r : Record) (c d : String) : (r.write c).write d = r.write (c ++ d) := by
  simp [write, Target.Listing.code, String.append_assoc]

/-- A run over two parts is the run over the second after that over the first. -/
theorem run_append (r : Record) (us vs : List Use) (c d : String) :
    r.run (us ++ vs) (c ++ d) = (r.run us c).bind fun r' => r'.run vs d := by
  rw [run, run, useAll_append]
  cases r.useAll us with
  | error e => rfl
  | ok r' =>
    change (r'.useAll vs).map (write (c ++ d)) = ((r'.write c).useAll vs).map (write d)
    rw [useAll_write]
    cases r'.useAll vs with
    | error e => rfl
    | ok r'' => exact congrArg Except.ok (write_write r'' c d).symm

/-! ## The tables after a run -/

theorem eraseDups_concat (xs : List String) (x : String) :
    (xs ++ [x]).eraseDups = if x ∈ xs then xs.eraseDups else xs.eraseDups ++ [x] := by
  rw [List.eraseDups_append]
  by_cases h : x ∈ xs <;> simp [List.removeAll, h, List.eraseDups_cons]

/-- `r` is `start` with the names of the uses in its tables and the variables declared. -/
structure Holds (start : Record) (uses : List Use) (r : Record) : Prop where
  variableNames : r.variableNames = (named .target uses).eraseDups
  labels : r.labels.map Prod.fst = named .label uses
  jumps : r.jumps.map Prod.fst = (named .jump uses).eraseDups
  opening : r.listing.opening = start.listing.opening ++ declarations r.variableNames
  body : r.listing.body = start.listing.body

theorem lookup_eq_none_iff_notMem (table : List (String × Location)) (name : String) :
    table.lookup name = none ↔ name ∉ table.map Prod.fst := by
  rw [List.lookup_eq_none_iff]
  simp only [List.mem_map, not_exists, not_and, bne_iff_ne, ne_eq]
  exact ⟨fun h p hp he => h p hp he.symm, fun h p hp he => h p hp he.symm⟩

theorem Holds.use {start r r' : Record} {us : List Use} {u : Use} (h : Holds start us r)
    (hu : r.use u = .ok r') : Holds start (us ++ [u]) r' := by
  cases hrole : u.role with
  | target =>
    simp only [Record.use, hrole] at hu
    cases hu
    by_cases hn : r.variableNames.contains u.name = true
    · have hmem : u.name ∈ named .target us := by
        simpa [h.variableNames, List.mem_eraseDups] using hn
      simp only [declare, hn, ↓reduceIte]
      exact ⟨by simp [named_singleton, hrole, eraseDups_concat, hmem, h.variableNames],
        by simp [named_singleton, hrole, h.labels], by simp [named_singleton, hrole, h.jumps],
        h.opening, h.body⟩
    · have hmem : u.name ∉ named .target us := by
        simpa [h.variableNames, List.mem_eraseDups] using hn
      simp only [declare, hn, Bool.false_eq_true, ↓reduceIte]
      refine ⟨by simp [named_singleton, hrole, eraseDups_concat, hmem, h.variableNames],
        by simp [named_singleton, hrole, h.labels], by simp [named_singleton, hrole, h.jumps],
        ?_, h.body⟩
      simp [Target.Listing.declare, h.opening, concatMap_append, concatMap, declarations,
        line, String.append_assoc]
  | read =>
    simp only [Record.use, hrole] at hu
    split at hu <;> cases hu
    exact ⟨by simp [named_singleton, hrole, h.variableNames],
      by simp [named_singleton, hrole, h.labels], by simp [named_singleton, hrole, h.jumps],
      h.opening, h.body⟩
  | label =>
    simp only [Record.use, hrole] at hu
    split at hu <;> cases hu
    exact ⟨by simp [named_singleton, hrole, h.variableNames],
      by simp [named_singleton, hrole, h.labels], by simp [named_singleton, hrole, h.jumps],
      h.opening, h.body⟩
  | jump =>
    have hmem : r.jumps.lookup u.name = none ↔ u.name ∉ named .jump us := by
      rw [lookup_eq_none_iff_notMem, h.jumps, List.mem_eraseDups]
    simp only [Record.use, hrole] at hu
    split at hu
    · next first hl =>
      cases hu
      have hold : u.name ∈ named .jump us := by
        by_contra hnew
        rw [hmem.2 hnew] at hl
        cases hl
      exact ⟨by simp [named_singleton, hrole, h.variableNames],
        by simp [named_singleton, hrole, h.labels],
        by simp [named_singleton, hrole, eraseDups_concat, hold, h.jumps], h.opening, h.body⟩
    · next hl =>
      cases hu
      have hnew := hmem.1 hl
      exact ⟨by simp [named_singleton, hrole, h.variableNames],
        by simp [named_singleton, hrole, h.labels],
        by simp [named_singleton, hrole, eraseDups_concat, hnew, h.jumps], h.opening, h.body⟩

/-- A use fails only for a read without a target before it or a label declared before. -/
theorem Holds.use_isOk_iff {start r : Record} {us : List Use} (h : Holds start us r) (u : Use) :
    (∃ r', r.use u = .ok r') ↔
      (u.role = .read → u.name ∈ named .target us) ∧
        (u.role = .label → u.name ∉ named .label us) := by
  have hread : r.variableNames.contains u.name = true ↔ u.name ∈ named .target us := by
    simp [h.variableNames, List.mem_eraseDups]
  have hlabel : r.labels.lookup u.name = none ↔ u.name ∉ named .label us := by
    rw [lookup_eq_none_iff_notMem, h.labels]
  cases hrole : u.role with
  | target => simp [Record.use, hrole]
  | read =>
    rw [← hread]
    by_cases hn : u.name ∈ r.variableNames <;> simp [Record.use, hrole, hn]
  | label =>
    rw [← hlabel]
    cases hl : r.labels.lookup u.name <;> simp [Record.use, hrole, hl]
  | jump => cases hl : r.jumps.lookup u.name <;> simp [Record.use, hrole, hl]

theorem useAll_concat (r : Record) (us : List Use) (u : Use) :
    r.useAll (us ++ [u]) = (r.useAll us).bind fun r' => r'.use u := by
  rw [useAll_append]
  cases r.useAll us with
  | error d => rfl
  | ok r' =>
    change (r'.use u).bind Except.ok = r'.use u
    cases r'.use u <;> rfl

theorem holds_useAll {start r : Record} (hstart : Holds start [] start) {uses : List Use}
    (h : start.useAll uses = .ok r) : Holds start uses r := by
  induction uses using List.reverseRecOn generalizing r with
  | nil =>
    cases h
    exact hstart
  | append_singleton us u ih =>
    rw [useAll_concat] at h
    cases hus : start.useAll us with
    | error d =>
      rw [hus] at h
      cases h
    | ok r' =>
      rw [hus] at h
      exact (ih hus).use h

theorem useAll_isOk_iff {start : Record} (hstart : Holds start [] start) (uses : List Use) :
    (∃ r, start.useAll uses = .ok r) ↔ ReadsDeclared uses ∧ (named .label uses).Nodup := by
  induction uses using List.reverseRecOn with
  | nil => exact ⟨fun _ => ⟨readsDeclared_nil, List.nodup_nil⟩, fun _ => ⟨start, rfl⟩⟩
  | append_singleton us u ih =>
    have hnodup : (named .label (us ++ [u])).Nodup ↔
        (named .label us).Nodup ∧ (u.role = .label → u.name ∉ named .label us) := by
      by_cases hrole : u.role = .label
      · rw [named_append, named_singleton, if_pos hrole, List.nodup_append_comm]
        simp [hrole, and_comm]
      · simp [named_singleton, hrole]
    rw [useAll_concat, readsDeclared_concat, hnodup]
    cases hus : start.useAll us with
    | error d =>
      have hnot : ¬ (ReadsDeclared us ∧ (named .label us).Nodup) := by
        rw [← ih, hus]
        rintro ⟨r, hr⟩
        cases hr
      constructor
      · rintro ⟨r, hr⟩
        cases hr
      · rintro ⟨⟨hreads, _⟩, hlabels, _⟩
        exact absurd ⟨hreads, hlabels⟩ hnot
    | ok r =>
      have hold := ih.1 ⟨r, hus⟩
      have hlast := (holds_useAll hstart hus).use_isOk_iff u
      change (∃ r', r.use u = .ok r') ↔ _
      rw [hlast]
      exact ⟨fun h => ⟨⟨hold.1, h.1⟩, hold.2, h.2⟩, fun h => ⟨h.1.2, h.2.2⟩⟩

theorem run_precision {r r' : Record} {uses : List Use} {code : String}
    (h : r.run uses code = .ok r') : r'.precision = r.precision := by
  induction uses generalizing r with
  | nil =>
    cases h
    rfl
  | cons u uses ih =>
    change ((r.use u).bind fun r => r.useAll uses).map (write code) = .ok r' at h
    cases hu : r.use u with
    | error d =>
      rw [hu] at h
      cases h
    | ok r₁ =>
      rw [hu] at h
      exact (ih h).trans (use_precision hu)

end Record

end TeenyLang
