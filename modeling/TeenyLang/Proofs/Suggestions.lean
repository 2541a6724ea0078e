import TeenyLang.Proofs.InputEnd
import TeenyLang.Proofs.MatchedBlocks
import TeenyLang.Proofs.SessionResults

set_option autoImplicit false

/-!
# The names suggested for an undeclared variable

Of the declared names those with a ratio of at least three fifths are close, and the best three of
them are suggested (`suggested_closeMatches`). An agenda gets its only complaint about a variable at
an operand, with the names declared there (`Faithful`), and the names do not change before it is
raised.
-/
namespace TeenyLang

namespace Text

/-- More alike to the word, or just as much alike and the later name. -/
def Above (word y z : String) : Prop :=
  ratio z word < ratio y word ∨ ratio z word = ratio y word ∧ z < y

structure Suggested (word : String) (names similar : List String) : Prop where
  few : similar.length ≤ 3
  distinct : similar.Nodup
  close : ∀ y ∈ similar, y ∈ names ∧ 3 / 5 ≤ ratio y word
  descending : similar.Pairwise (Above word)
  leftOut : ∀ y ∈ names, y ∉ similar →
    ratio y word < 3 / 5 ∨ similar.length = 3 ∧ ∀ z ∈ similar, Above word z y

def ranking (word : String) (names : List String) : List String :=
  (names.filter fun y => (likeness word y).isClose).mergeSort fun y z =>
    (likeness word y).atLeast (likeness word z)

theorem closeMatches_eq (word : String) (names : List String) :
    closeMatches word names = (ranking word names).take 3 := by
  have hmap : ((names.map (likeness word)).filter Likeness.isClose).mergeSort Likeness.atLeast =
      (ranking word names).map (likeness word) := by
    rw [ranking, List.filter_map]
    refine (List.map_mergeSort ?_).symm
    exact fun _ _ _ _ => rfl
  have hback : Likeness.candidate ∘ likeness word = id := funext fun y => candidate_likeness word y
  rw [closeMatches, hmap, ← List.map_take, List.map_map, hback, List.map_id]

theorem mem_ranking {word y : String} {names : List String} :
    y ∈ ranking word names ↔ y ∈ names ∧ 3 / 5 ≤ ratio y word := by
  rw [ranking, List.mem_mergeSort, List.mem_filter, isClose_likeness]

theorem nodup_ranking {word : String} {names : List String} (h : names.Nodup) :
    (ranking word names).Nodup :=
  (List.mergeSort_perm _ _).nodup_iff.mpr (h.filter _)

theorem pairwise_ranking (word : String) {names : List String} (h : names.Nodup) :
    (ranking word names).Pairwise (Above word) := by
  have hsorted : (ranking word names).Pairwise fun y z =>
      (likeness word y).atLeast (likeness word z) = true := by
    refine List.pairwise_mergeSort (fun x y z hxy hyz => ?_) (fun x y => ?_) _
    · rw [atLeast_likeness] at hxy hyz ⊢
      rcases hxy with hxy | ⟨hxy, hyx⟩
      · exact .inl (hyz.elim (·.trans hxy) (·.1 ▸ hxy))
      · exact hyz.imp (hxy ▸ ·) fun h => ⟨h.1.trans hxy, h.2.trans hyx⟩
    · rw [Bool.or_eq_true, atLeast_likeness, atLeast_likeness]
      rcases lt_trichotomy (ratio x word) (ratio y word) with hlt | heq | hlt
      · exact .inr (.inl hlt)
      · exact (le_total y x).imp (.inr ⟨heq.symm, ·⟩) (.inr ⟨heq, ·⟩)
      · exact .inl (.inl hlt)
  refine (hsorted.and (nodup_ranking h)).imp fun {y z} hyz => ?_
  exact ((atLeast_likeness word y z).mp hyz.1).imp id fun h => ⟨h.1, lt_of_le_of_ne h.2 hyz.2.symm⟩

theorem suggested_closeMatches (word : String) {names : List String} (h : names.Nodup) :
    Suggested word names (closeMatches word names) := by
  have hsplit := List.take_append_drop 3 (ranking word names)
  have hpairwise := pairwise_ranking word h
  rw [closeMatches_eq]
  refine ⟨List.length_take_le _ _, (nodup_ranking h).sublist (List.take_sublist _ _), ?_,
    hpairwise.sublist (List.take_sublist _ _), ?_⟩
  · exact fun y hy => mem_ranking.mp (List.mem_of_mem_take hy)
  · intro y hy hout
    refine or_iff_not_imp_left.mpr fun hclose => ?_
    have hrest : y ∈ (ranking word names).drop 3 := by
      have hmem := mem_ranking.mpr ⟨hy, not_lt.mp hclose⟩
      rw [← hsplit] at hmem
      exact (List.mem_append.mp hmem).resolve_left hout
    have hlength := List.length_pos_of_mem hrest
    rw [List.length_drop] at hlength
    rw [← hsplit, List.pairwise_append] at hpairwise
    exact ⟨by rw [List.length_take]; omega, fun z hz => hpairwise.2.2 z hz y hrest⟩

theorem closeMatches_eq_nil_iff (word : String) (names : List String) :
    closeMatches word names = [] ↔ ∀ y ∈ names, ratio y word < 3 / 5 := by
  have hnil : closeMatches word names = [] ↔ ranking word names = [] := by
    rw [closeMatches_eq, List.take_eq_nil_iff]
    simp
  rw [hnil, List.eq_nil_iff_forall_not_mem]
  simp [mem_ranking]

end Text

/-! ## Where the names come from -/

@[simp] def Cause.Plain : Cause → Prop
  | undeclaredVariable .. => False
  | _ => True

theorem Cause.plain_of_lexical {cause : Cause} (h : cause.stage = some .lexical) : cause.Plain := by
  cases cause with
  | undeclaredVariable => cases h
  | _ => trivial

namespace Parser

variable {σ : Type}

/-- If the cause is about a variable, then this is not declared, and it comes with the best of the
declared names. -/
def Blames (p : Parser σ) (cause : Cause) : Prop :=
  ∀ name similar, cause = .undeclaredVariable name similar →
    name ∉ p.variableNames ∧ similar = Text.closeMatches name p.sortedVariables

theorem blames_of_plain {p : Parser σ} {cause : Cause} (h : cause.Plain) : p.Blames cause := by
  rintro name similar rfl
  cases h

@[simp] def Item.Plain : Item → Prop
  | .act (.failAt _ cause) => cause.Plain
  | .act (.throw diagnostic) => diagnostic.cause.Plain
  | _ => True

def AllPlain (items : List Item) : Prop :=
  ∀ item ∈ items, item.Plain

@[simp] theorem allPlain_nil : AllPlain [] :=
  List.forall_mem_nil _

@[simp] theorem allPlain_cons {item : Item} {items : List Item} :
    AllPlain (item :: items) ↔ item.Plain ∧ AllPlain items :=
  List.forall_mem_cons

@[simp] theorem allPlain_append {xs ys : List Item} :
    AllPlain (xs ++ ys) ↔ AllPlain xs ∧ AllPlain ys :=
  List.forall_mem_append

/-- The agenda complains about a variable at most at once, or with a note before, and rightly. -/
inductive Faithful (p : Parser σ) : List Item → Prop
  | plain {agenda : List Item} (h : AllPlain agenda) : Faithful p agenda
  | raise {token : Token} {cause : Cause} {rest : List Item} (h : p.Blames cause)
      (hrest : AllPlain rest) : Faithful p (.act (.failAt token cause) :: rest)
  | note {message : String} {token : Token} {cause : Cause} {rest : List Item} (h : p.Blames cause)
      (hrest : AllPlain rest) :
      Faithful p (.act (.note message) :: .act (.failAt token cause) :: rest)

@[simp] theorem allPlain_newlineItems : AllPlain newlineItems := by
  simp [newlineItems]

@[simp] theorem allPlain_expressionItems : AllPlain expressionItems := by
  simp [expressionItems, termItems, unaryItems]

theorem allPlain_openingItems (token : Token) : AllPlain (openingItems token) := by
  unfold openingItems
  split <;> simp [namingItems, headItems, comparisonItems]

theorem allPlain_naming (token : Token) (naming : Naming) : AllPlain (naming.items token) := by
  cases naming <;> simp [Naming.items]

theorem allPlain_operandItems (level : Precedence) : AllPlain level.operandItems := by
  cases level with
  | products => simp [Precedence.operandItems, unaryItems]
  | sums => simp [Precedence.operandItems, termItems, unaryItems]
  | comparisons => exact allPlain_expressionItems

theorem allPlain_plan (p : Parser σ) (spot : Spot) (h : spot ≠ .operand) :
    AllPlain (spot.plan p) := by
  cases spot with
  | operand => exact absurd rfl h
  | statement =>
    rw [Spot.plan, allPlain_append]
    refine ⟨allPlain_openingItems p.current, ?_⟩
    split <;> simp [closingItems]
  | name naming =>
    rw [Spot.plan]
    split <;> simp [allPlain_naming]
  | operators level =>
    rw [Spot.plan]
    split <;> simp [allPlain_operandItems]
  | _ =>
    rw [Spot.plan]
    repeat' split
    all_goals simp

theorem faithful_plan (p : Parser σ) (spot : Spot) {agenda : List Item}
    (h : AllPlain agenda) : Faithful p (spot.plan p ++ agenda) := by
  by_cases hspot : spot = .operand
  · subst hspot
    rw [Spot.plan]
    repeat' split
    case isFalse hunknown =>
      refine .note (fun name similar hcause => ?_) h
      cases hcause
      exact ⟨by simpa using hunknown, rfl⟩
    all_goals exact .plain (by simpa using h)
  · exact .plain (allPlain_append.mpr ⟨allPlain_plan p spot hspot, h⟩)

theorem Faithful.moves {c c' : Config Scanner} (h : c.Moves c')
    (hc : Faithful c.parser c.agenda) : Faithful c'.parser c'.agenda := by
  cases h with
  | look spot agenda p =>
    cases hc with
    | plain h => exact faithful_plan p spot (allPlain_cons.mp h).2
  | act hrun =>
    cases hc with
    | plain h => exact .plain (allPlain_cons.mp h).2
    | raise => cases hrun
    | note h hrest =>
      -- a note leaves the names as they are
      cases hrun
      exact .raise h hrest

theorem Faithful.leads {c c' : Config Scanner} (h : Faithful c.parser c.agenda)
    (hleads : Leads c c') : Faithful c'.parser c'.agenda :=
  hleads.keeps (fun c => Faithful c.parser c.agenda) (fun _ _ => Faithful.moves) h

theorem Faithful.blames {p q : Parser Scanner} {act : Act} {rest : List Item} {d : Diagnostic}
    (h : Faithful p (.act act :: rest)) (hfails : act.run p = .error d q) : q.Blames d.cause := by
  cases h with
  | plain h =>
    have hplain := (allPlain_cons.mp h).1
    have hraises := Act.raises hfails
    generalize d.cause = cause at hraises
    refine blames_of_plain ?_
    cases hraises with
    | advance hstage => exact Cause.plain_of_lexical hstage
    | failAt | throw => exact hplain
    | declareLabel | checkLabels => trivial
  | raise h =>
    cases hfails
    exact h
  | note => cases hfails

theorem blames_of_program {p q : Parser Scanner} {d : Diagnostic} (h : program p = .error d q) :
    q.Blames d.cause := by
  obtain ⟨act, left, r, hleads, hfails⟩ := (performs_program p).failing h
  have hfaithful : Faithful p programItems := .plain (by simp [programItems])
  exact Faithful.blames (Faithful.leads hfaithful hleads) hfails

theorem nodup_of_program {source file : String} {precision : Int} {p q : Parser Scanner}
    {d : Diagnostic} (hp : ofSource source file precision = .ok p) (h : program p = .error d q) :
    q.variableNames.Nodup := by
  have hblank : p.record.Consistent := by
    rw [(start_eq_ok hp).2]
    exact ⟨⟨[], rfl, rfl⟩, .nil, .nil, .nil⟩
  have hlast : p.after [.program] = q := by
    have hrule : (Call.program.rule : Rule Scanner Answer) p = .error d q := bind_of_error h
    simp only [after, List.foldl_cons, List.foldl_nil, perform, hrule]
  have hconsistent := after_consistent hblank [.program]
  rw [hlast] at hconsistent
  exact hconsistent.variableNames

end Parser

/-- A compilation that fails in the rules lists the names that the parser has declared by then. -/
theorem program_of_diagnostic {options : Options} {source file : String} {d : Diagnostic}
    (h : (compile options source file).1.diagnostic? = some d)
    (hstage : d.cause.stage ≠ some .lexical) :
    ∃ p q, Parser.ofSource source file options.precision = .ok p ∧ Parser.program p = .error d q ∧
      (compile options source file).1.variableNames = q.sortedVariables := by
  have hverdict := targetText_of_rejected (Compilation.verdict_of_diagnostic h)
  rcases targetText_eq_error hverdict with hlexical | ⟨p, q, hp, hq⟩
  · exact absurd (Parser.ofSource_error hlexical) hstage
  · refine ⟨p, q, hp, hq, ?_⟩
    simp only [compile, hp, hq]
    rfl

theorem hint_undeclaredVariable (x : String) {similar : List String} (h : similar.length ≤ 3) :
    (Cause.undeclaredVariable x similar).hint = some (
      if similar = [] then "assign it first with LET " ++ x ++ " = ... or INPUT " ++ x
      else "did you mean " ++ ", ".intercalate (similar.map ("'" ++ · ++ "'")) ++ "?") := by
  have hplain (text : String) : toString text = text := rfl
  cases similar with
  | nil => simp [Cause.hint, hplain]
  | cons y rest => simp [Cause.hint, Cause.listed, hplain, List.take_of_length_le h]

/-- The names that come with an undeclared variable are the best of the declared ones, and the
advice shows them all. -/
theorem suggestions_best {options : Options} {source file : String} {d : Diagnostic} {x : String}
    {similar : List String} (hfails : (compile options source file).1.diagnostic? = some d)
    (hcause : d.cause = .undeclaredVariable x similar) :
    let names := (compile options source file).1.variableNames
    x ∉ names ∧ Text.Suggested x names similar ∧
      (∀ y r, Text.IsRatio y x r ↔ r = Text.ratio y x) ∧
      (similar = [] ↔ ∀ y ∈ names, Text.ratio y x < 3 / 5) ∧
      d.cause.hint = some (
        if similar = [] then "assign it first with LET " ++ x ++ " = ... or INPUT " ++ x
        else "did you mean " ++ ", ".intercalate (similar.map ("'" ++ · ++ "'")) ++ "?") := by
  have hstage : d.cause.stage ≠ some .lexical := by simp [hcause, Cause.stage]
  obtain ⟨p, q, hp, hq, hnames⟩ := program_of_diagnostic hfails hstage
  obtain ⟨hunknown, rfl⟩ := Parser.blames_of_program hq x similar hcause
  have hsorted : q.sortedVariables.Perm q.variableNames := List.mergeSort_perm _ _
  have hsuggested : Text.Suggested x q.sortedVariables (Text.closeMatches x q.sortedVariables) :=
    Text.suggested_closeMatches x (hsorted.nodup_iff.mpr (Parser.nodup_of_program hp hq))
  simp only [hnames, hcause]
  exact ⟨fun hmem => hunknown (hsorted.mem_iff.mp hmem), hsuggested, fun y => Text.isRatio_iff y x,
    Text.closeMatches_eq_nil_iff x q.sortedVariables, hint_undeclaredVariable x hsuggested.few⟩

section Misspelled

def misspelledSource : String :=
  "LET mount = 1\nLET count = 2\nLET counts = 3\nLET county = 4\nLET z = 5\nPRINT coun\n"

def misspelledEnd : Option (List String × String) :=
  match Parser.ofSource misspelledSource "a.teeny" ({} : Options).precision with
  | .ok p =>
    match Parser.program p with
    | .error ⟨.undeclaredVariable x _, _, _⟩ q => some (q.variableNames, x)
    | _ => none
  | .error _ => none

theorem closeMatches_misspelled :
    Text.closeMatches "coun" (["mount", "count", "counts", "county", "z"].mergeSort
      fun x y => decide (x ≤ y)) = ["count", "county", "counts"] := by
  have hsorted : (["mount", "count", "counts", "county", "z"].mergeSort
      fun x y => decide (x ≤ y)) = ["count", "counts", "county", "mount", "z"] := by
    simp [List.mergeSort, List.MergeSort.Internal.splitInTwo]
  have hlikeness : ["count", "counts", "county", "mount", "z"].map (Text.likeness "coun") =
      [⟨"count", 8, 9⟩, ⟨"counts", 8, 10⟩, ⟨"county", 8, 10⟩, ⟨"mount", 6, 9⟩, ⟨"z", 0, 5⟩] := by
    decide +kernel
  rw [hsorted, Text.closeMatches, hlikeness]
  simp [Text.Likeness.isClose, Text.Likeness.atLeast, List.mergeSort,
    List.MergeSort.Internal.splitInTwo]

/-- Four of five declared names are close, and the two that are alike in the same degree stand in
the order of their characters, the later one first. -/
theorem suggestions_best_misspelled :
    ∃ d, (compile {} misspelledSource "a.teeny").1.diagnostic? = some d ∧
      d.cause = .undeclaredVariable "coun" ["count", "county", "counts"] ∧
      Text.Suggested "coun" (compile {} misspelledSource "a.teeny").1.variableNames
        ["count", "county", "counts"] ∧
      d.cause.hint = some "did you mean 'count', 'county', 'counts'?" := by
  have hend : misspelledEnd = some (["mount", "count", "counts", "county", "z"], "coun") := by
    decide +kernel
  unfold misspelledEnd at hend
  split at hend
  · next p hp =>
    split at hend
    · next x similar place line q hq =>
      obtain ⟨hnames, rfl⟩ := Prod.mk.inj (Option.some.inj hend)
      have hfails : (compile {} misspelledSource "a.teeny").1.diagnostic? =
          some ⟨.undeclaredVariable "coun" similar, place, line⟩ := by
        simp only [compile, hp, hq]
        rfl
      have hsimilar := (Parser.blames_of_program hq _ _ rfl).2
      rw [Parser.sortedVariables, hnames, closeMatches_misspelled] at hsimilar
      subst hsimilar
      obtain ⟨-, hsuggested, -, -, hhint⟩ := suggestions_best hfails rfl
      exact ⟨_, hfails, rfl, hsuggested, hhint.trans (by decide)⟩
    · cases hend
  · cases hend

end Misspelled

end TeenyLang
