import TeenyLang.Proofs.Acceptance
import TeenyLang.Proofs.ConditionValue
import TeenyLang.Proofs.Tokenization

set_option autoImplicit false

/-!
# The meaning of the expressions of a program

For every expression and every condition of a translated source: its translation stands in the C
text, C gives it a value exactly if it has one, and it is known exactly when the two values are the
same. They differ where C cuts off a quotient of integers, and where a relation stands after an
equality.
-/
namespace TeenyLang

open Grammar

def Occurs (part whole : String) : Prop :=
  ∃ before after, whole = before ++ part ++ after

theorem occurs_self (s : String) : Occurs s s :=
  ⟨"", "", by simp⟩

theorem Occurs.within {part whole : String} (h : Occurs part whole) (before after : String) :
    Occurs part (before ++ whole ++ after) := by
  obtain ⟨b, a, rfl⟩ := h
  exact ⟨before ++ b, a ++ after, by simp [String.append_assoc]⟩

theorem Occurs.trans {part whole text : String} (h : Occurs part whole) (h' : Occurs whole text) :
    Occurs part text := by
  obtain ⟨before, after, rfl⟩ := h'
  exact h.within before after

namespace Grammar

theorem occurs_concatMap {ι : Type} {code : ι → String} {items : List ι} {i : ι} (h : i ∈ items) :
    Occurs (code i) (concatMap code items) := by
  obtain ⟨before, after, rfl⟩ := List.append_of_mem h
  refine ⟨concatMap code before, concatMap code after, ?_⟩
  rw [concatMap_append, concatMap, String.append_assoc]

inductive Formula where
  | expression (e : Expression)
  | condition (c : Comparison)

namespace Formula

def code : Formula → String
  | expression e => Expression.code e
  | condition c => Comparison.code c

def tokens : Formula → List Token
  | expression e => Expression.tokens e
  | condition c => Comparison.tokens c

def tree : Formula → C.Expr
  | expression e => Expression.tree e
  | condition c => Comparison.tree c

def value (values : String → ℚ) : Formula → Option ℚ
  | expression e => Expression.value values e
  | condition c => Comparison.value values c

end Formula

def Printed.formulas : Printed → List Formula
  | text _ => []
  | value e => [.expression e]

def Comparison.formulas (c : Comparison) : List Formula :=
  .condition c :: c.1.row.operands.map .expression

mutual

def Statement.formulas : Statement → List Formula
  | .print _ printed _ => printed.formulas
  | .label _ _ _ => []
  | .goto _ _ _ => []
  | .assign _ _ _ value _ => [.expression value]
  | .input _ _ _ => []
  | .block _ _ condition _ _ body _ _ => condition.formulas ++ bodyFormulas body

def bodyFormulas : List Statement → List Formula
  | [] => []
  | s :: rest => s.formulas ++ bodyFormulas rest

end

def Program.formulas (P : Program) : List Formula :=
  bodyFormulas P.statements

theorem bodyFormulas_eq_flatMap (body : List Statement) :
    bodyFormulas body = body.flatMap Statement.formulas := by
  induction body with
  | nil => rfl
  | cons s rest ih => rw [bodyFormulas, ih, List.flatMap_cons]

/-! ## Formulas in a program -/

section Chains

variable {operators : List Kind} {α : Type}

theorem occurs_operand {code : α → String} {c : Chain operators α} {a : α}
    (h : a ∈ c.row.operands) : Occurs (code a) (Chain.code code c) := by
  rcases List.mem_cons.1 h with rfl | h
  · exact ⟨"", concatMap (linkCode code) c.tail, by simp [Chain.code, Chain.row]⟩
  · simp only [Chain.row, List.map_map, List.mem_map, Function.comp_apply] at h
    obtain ⟨link, hlink, rfl⟩ := h
    have hcode : Occurs (code link.2) (linkCode code link) :=
      ⟨" " ++ link.1.1.text ++ " ", "", by simp [linkCode]⟩
    have htail := (hcode.trans (occurs_concatMap hlink)).within (code c.head) ""
    simpa [Chain.code] using htail

theorem tokens_operand {tokens : α → List Token} {c : Chain operators α} {a : α}
    (h : a ∈ c.row.operands) : tokens a ⊆ c.tokens tokens := by
  rcases List.mem_cons.1 h with rfl | h
  · exact List.subset_append_left _ _
  · simp only [Chain.row, List.map_map, List.mem_map, Function.comp_apply] at h
    obtain ⟨link, hlink, rfl⟩ := h
    intro t ht
    exact List.mem_append_right _ (List.mem_flatMap.2 ⟨link, hlink, List.mem_cons_of_mem _ ht⟩)

end Chains

/-- The tokens of a formula are among the given ones, and its translation is part of the given
text. -/
def Formula.In (f : Formula) (tokens : List Token) (text : String) : Prop :=
  f.tokens ⊆ tokens ∧ Occurs f.code text

theorem Formula.In.mono {f : Formula} {tokens tokens' : List Token} {text text' : String}
    (h : f.In tokens text) (htokens : tokens ⊆ tokens') (htext : Occurs text text') :
    f.In tokens' text' :=
  ⟨fun _ ht => htokens (h.1 ht), h.2.trans htext⟩

theorem Comparison.formulas_in (c : Comparison) :
    ∀ f ∈ c.formulas, f.In (Comparison.tokens c) (Comparison.code c) := by
  rw [Comparison.formulas, List.forall_mem_cons, List.forall_mem_map]
  refine ⟨⟨fun _ ht => ht, occurs_self _⟩, fun e he => ?_⟩
  have htokens : Expression.tokens e ⊆ Chain.tokens Expression.tokens c.1 := tokens_operand he
  exact ⟨htokens, occurs_operand he⟩

theorem Printed.formulas_in (precision : Int) (x : Printed) :
    ∀ f ∈ x.formulas, f.In x.tokens (x.code precision) := by
  cases x with
  | text t => simp [Printed.formulas]
  | value e =>
    intro f hf
    obtain rfl := List.mem_singleton.1 hf
    refine ⟨fun _ ht => ht,
      "printf(\"%." ++ toString precision ++ "f\\n\", (float)(", "));" ++ "\n", ?_⟩
    simp [Printed.code, line, Formula.code, String.append_assoc]

theorem Statement.formulas_in (precision : Int) (s : Statement) :
    ∀ f ∈ s.formulas, f.In s.tokens (s.code precision) := by
  induction s using Statement.induction with
  | print word printed ending =>
    intro f hf
    refine (printed.formulas_in precision f hf).mono ?_ (occurs_self _)
    exact fun t ht => List.mem_cons_of_mem _ (List.mem_append_left _ ht)
  | label word name ending | goto word name ending | input word name ending =>
    simp [Statement.formulas]
  | assign word name equals value ending =>
    intro f hf
    obtain rfl := List.mem_singleton.1 hf
    refine ⟨fun t ht => ?_, Target.name name.1.text ++ " = ", ";" ++ "\n", ?_⟩
    · simp only [Formula.tokens] at ht
      simp [Statement.tokens, ht]
    · simp [Statement.code, line, Formula.code, String.append_assoc]
  | block form word condition follower gap body closer ending ih =>
    rw [Statement.formulas, List.forall_mem_append]
    refine ⟨fun f hf => ?_, fun f hf => ?_⟩
    · refine (condition.formulas_in f hf).mono (fun t ht => ?_)
        ⟨form.word ++ " (", ") \x7b" ++ "\n" ++ bodyCode precision body ++ line "\x7d", ?_⟩
      · simp [Statement.tokens, ht]
      · simp [Statement.code, line, String.append_assoc]
    · rw [bodyFormulas_eq_flatMap] at hf
      obtain ⟨s, hs, hf⟩ := List.mem_flatMap.1 hf
      refine (ih s hs f hf).mono (fun t ht => ?_) ?_
      · have hbody : t ∈ bodyTokens body := by
          rw [bodyTokens_eq_flatMap]
          exact List.mem_flatMap.2 ⟨s, hs, ht⟩
        simp [Statement.tokens, hbody]
      · rw [Statement.code, bodyCode_eq_concatMap]
        exact (occurs_concatMap hs).within _ _

theorem Program.formulas_in (precision : Int) (P : Program) :
    ∀ f ∈ P.formulas, f.In P.tokens (P.code precision) := by
  intro f hf
  rw [Program.formulas, bodyFormulas_eq_flatMap] at hf
  obtain ⟨s, hs, hf⟩ := List.mem_flatMap.1 hf
  refine (s.formulas_in precision f hf).mono (fun t ht => ?_) ?_
  · refine List.mem_append_right _ ?_
    rw [bodyTokens_eq_flatMap]
    exact List.mem_flatMap.2 ⟨s, hs, ht⟩
  · have hbody : Occurs (s.code precision) (bodyCode precision P.statements) := by
      rw [bodyCode_eq_concatMap]
      exact occurs_concatMap hs
    have hwhole := hbody.within (line "#include <stdio.h>" ++ line "int main(void) \x7b" ++
      declarations (named .target P.uses).eraseDups) (line "return 0;" ++ line "\x7d")
    simpa [Program.code, String.append_assoc] using hwhole

/-! ## The values of formulas -/

/-- C gives the translation of the formula the value that the formula has. -/
def Agrees (store : String → ℚ) (f : Formula) : Prop :=
  (C.value? store f.code).map C.Value.toRat = f.value (valuesIn store)

theorem Formula.read {f : Formula} (h : ∀ t ∈ f.tokens, Written t) :
    C.read f.code = some f.tree := by
  cases f with
  | expression e => exact Expression.read h
  | condition c => exact Comparison.read h

theorem Formula.value?_code (store : String → ℚ) {f : Formula} (h : ∀ t ∈ f.tokens, Written t) :
    C.value? store f.code = f.tree.eval store := by
  rw [C.value?, Formula.read h, Option.bind_some]

def Comparison.operandValues (values : String → ℚ) (c : Comparison) : Row ℚ :=
  c.1.row.map fun e => (Expression.value values e).getD 0

def Comparison.operandsInC (store : String → ℚ) (c : Comparison) : Row ℚ :=
  c.1.row.map fun e => ((C.value? store (Expression.code e)).map C.Value.toRat).getD 0

theorem Comparison.isSome_value (values : String → ℚ) (c : Comparison) :
    (Comparison.value values c).isSome ↔
      ∀ e ∈ c.1.row.operands, (Expression.value values e).isSome :=
  Row.isSome_value fun x hx => C.apply_total (.inr (c.row_comparison x hx))

theorem apply_comparison {op : Operator} (hop : op.isComparison) (a b : ℚ) :
    op.apply a b = some (op.bit a b) := by
  cases op with
  | equal | notEqual | less | lessEqual | greater | greaterEqual => rfl
  | _ => cases hop

theorem value_comparisons {α : Type} {valueOf : α → Option ℚ} {r : Row α}
    (hops : ∀ x ∈ r.tail, x.1.isComparison) (h : ∀ a ∈ r.operands, (valueOf a).isSome) :
    r.value Operator.apply valueOf = some (r.map fun a => (valueOf a).getD 0).leftToRight := by
  induction r using Row.snoc_induction with
  | single a =>
    obtain ⟨v, hv⟩ := Option.isSome_iff_exists.1 (h a (by simp [Row.operands]))
    simp [Row.value, Row.leftToRight, Row.map, Row.fold, hv]
  | snoc r op a ih =>
    rw [Row.snoc, List.forall_mem_append, List.forall_mem_singleton] at hops
    rw [Row.operands_snoc, List.forall_mem_append, List.forall_mem_singleton] at h
    obtain ⟨v, hv⟩ := Option.isSome_iff_exists.1 h.2
    have hmap : (r.snoc op a).map (fun a => (valueOf a).getD 0) =
        (r.map fun a => (valueOf a).getD 0).snoc op v := by
      simp [Row.map, Row.snoc, hv]
    rw [Row.value_snoc, ih hops.1 h.1, hmap, Row.leftToRight, Row.leftToRight, Row.fold_snoc, hv]
    exact apply_comparison hops.2 _ _

/-- What is known of an expression and its translation into the C text `text`. -/
structure ExpressionMeaning (store : String → ℚ) (text : String) (e : Expression) : Prop where
  occurs : Occurs (Expression.code e) text
  /-- C gives the translation a value exactly if the expression has one. -/
  defined : (C.value? store (Expression.code e)).isSome ↔
    (Expression.value (valuesIn store) e).isSome
  /-- Without remainders the two values are the same. -/
  agrees : (∀ t ∈ e.row.operands, t.Exact) → Agrees store (.expression e)
  /-- They are the same up to each operator exactly if every term that leaves a remainder is
  zero. -/
  exact : (Expression.value (valuesIn store) e).isSome →
    ((∀ k, Agrees store (.expression (e.leading k))) ↔
      ∀ t ∈ e.row.operands, Term.value (valuesIn store) t = some 0 ∨ t.Exact)

structure ConditionMeaning (store : String → ℚ) (text : String) (c : Comparison) : Prop where
  occurs : Occurs (Comparison.code c) text
  defined : (C.value? store (Comparison.code c)).isSome ↔
    (Comparison.value (valuesIn store) c).isSome
  /-- Without a relation after an equality only the operands can differ. -/
  agrees : EqualitiesLast c.1.row.operators →
    (∀ e ∈ c.1.row.operands, Agrees store (.expression e)) → Agrees store (.condition c)
  /-- C applies the relations first, to its own values of the operands. -/
  exact : (Comparison.value (valuesIn store) c).isSome →
    (Agrees store (.condition c) ↔
      (c.operandsInC store).relationsFirst =
        (c.operandValues (valuesIn store)).leftToRight)
  /-- That order of the operators is right for all operands exactly if the equalities come
  last. -/
  order : (∀ r : Row ℚ, r.operators = c.1.row.operators → r.relationsFirst = r.leftToRight) ↔
    EqualitiesLast c.1.row.operators

section Store

variable (store : String → ℚ)

theorem leading_tokens (k : ℕ) (e : Expression) :
    Expression.tokens (e.leading k) ⊆ Expression.tokens e := by
  refine List.append_subset.2 ⟨List.subset_append_left _ _, fun t ht => ?_⟩
  obtain ⟨link, hlink, ht⟩ := List.mem_flatMap.1 ht
  exact List.mem_append_right _ (List.mem_flatMap.2 ⟨link, List.mem_of_mem_take hlink, ht⟩)

theorem expressionMeaning {text : String} {e : Expression}
    (hwritten : ∀ t ∈ Expression.tokens e, Written t)
    (hoccurs : Occurs (Expression.code e) text) : ExpressionMeaning store text e := by
  have hvalue : C.value? store (Expression.code e) = (Expression.tree e).eval store :=
    Formula.value?_code store (f := .expression e) hwritten
  have hterms := written_operands hwritten
  refine ⟨hoccurs, ?_, fun hexact => ?_, fun hdefined => ?_⟩
  · rw [hvalue, Expression.isSome_eval store hwritten]
  · have hagree : ∀ t ∈ e.row.operands,
        ((Term.tree t).eval store).map C.Value.toRat = Term.value (valuesIn store) t := by
      intro t ht
      by_cases hdefined : (Term.value (valuesIn store) t).isSome
      · exact (Term.agrees_iff store (hterms t ht) hdefined).2 (.inr (hexact t ht))
      · have heval := hdefined
        rw [← Term.isSome_eval store (hterms t ht)] at heval
        rw [Option.not_isSome_iff_eq_none] at hdefined heval
        rw [hdefined, heval]
        rfl
    have hsame := Expression.agrees store hagree
    rwa [← hvalue] at hsame
  · rw [← Expression.leading_agree_iff store hwritten hdefined]
    refine forall_congr' fun k => ?_
    have hleading : ∀ t ∈ Expression.tokens (e.leading k), Written t :=
      fun t ht => hwritten t (leading_tokens k e ht)
    rw [Agrees, Formula.value?_code store (f := .expression (e.leading k)) hleading]
    rfl

theorem map_congr {α β : Type} {f g : α → β} {r : Row α} (h : ∀ a ∈ r.operands, f a = g a) :
    r.map f = r.map g := by
  rw [Row.operands, List.forall_mem_cons, List.forall_mem_map] at h
  simp only [Row.map, h.1, Row.mk.injEq, true_and]
  exact List.map_congr_left fun x hx => by rw [h.2 x hx]

theorem operators_map {α β : Type} (f : α → β) (r : Row α) :
    (r.map f).operators = r.operators := by
  simp [Row.operators, Row.map]

theorem map_toRat_eq {x : C.Expr} (h : (x.eval store).isSome) :
    (x.eval store).map C.Value.toRat = some (ratIn store x) := by
  obtain ⟨v, hv⟩ := Option.isSome_iff_exists.1 h
  simp [ratIn, hv]

theorem conditionMeaning {text : String} {c : Comparison}
    (hwritten : ∀ t ∈ Comparison.tokens c, Written t)
    (hoccurs : Occurs (Comparison.code c) text) : ConditionMeaning store text c := by
  have hvalue : C.value? store (Comparison.code c) = (Comparison.tree c).eval store :=
    Formula.value?_code store (f := .condition c) hwritten
  have hoperands := written_operands hwritten
  have hoperand : ∀ e ∈ c.1.row.operands,
      C.value? store (Expression.code e) = (Expression.tree e).eval store :=
    fun e he => Formula.value?_code store (f := .expression e) (hoperands e he)
  have hdefined : (C.value? store (Comparison.code c)).isSome ↔
      (Comparison.value (valuesIn store) c).isSome := by
    rw [hvalue, Comparison.isSome_eval, Comparison.isSome_value]
    refine forall₂_congr fun e he => ?_
    rw [Expression.isSome_eval store (hoperands e he)]
  have hexact : (Comparison.value (valuesIn store) c).isSome →
      (Agrees store (.condition c) ↔ (c.operandsInC store).relationsFirst =
        (c.operandValues (valuesIn store)).leftToRight) := by
    intro hsome
    have heval := hdefined.2 hsome
    rw [hvalue] at heval
    have hc : (C.value? store (Comparison.code c)).map C.Value.toRat =
        some (c.operandsInC store).relationsFirst := by
      have hrow : (c.1.row.map fun e => ratIn store (Expression.tree e)) = c.operandsInC store :=
        map_congr fun e he => by rw [hoperand e he, ratIn]
      rw [hvalue, map_toRat_eq store heval,
        Comparison.ratIn_tree store ((Comparison.isSome_eval store c).1 heval), hrow]
    have hv : Comparison.value (valuesIn store) c =
        some (c.operandValues (valuesIn store)).leftToRight :=
      value_comparisons c.row_comparison ((Comparison.isSome_value _ c).1 hsome)
    rw [Agrees, Formula.code, Formula.value, hc, hv, Option.some.injEq]
  have hcomparison : ∀ op ∈ c.1.row.operators, op.isComparison :=
    (forall_mem_operators (p := fun op => op.isComparison)).2 c.row_comparison
  refine ⟨hoccurs, hdefined, fun hlast hagree => ?_, hexact, relationsFirst_eq_iff hcomparison⟩
  by_cases hsome : (Comparison.value (valuesIn store) c).isSome
  · have hrows : c.operandsInC store = c.operandValues (valuesIn store) :=
      map_congr fun e he => congrArg (Option.getD · 0) (hagree e he)
    rw [hexact hsome, hrows]
    exact (relationsFirst_eq_iff hcomparison).2 hlast _ (operators_map _ _)
  · have heval := hsome
    rw [← hdefined] at heval
    rw [Option.not_isSome_iff_eq_none] at hsome heval
    rw [Agrees, Formula.code, Formula.value, hsome, heval]
    rfl

end Store

end Grammar

theorem written_of_derives {source file : String} {P : Program} (h : Derives source file P) :
    ∀ t ∈ P.tokens, Written t := by
  obtain ⟨hfailure, last, _, htokens⟩ := h
  exact Lexical.spells_of_readAll hfailure htokens

/-- The expressions and conditions of a translated source: where their translations stand, when
they have a value in C, and exactly when it is the right one. -/
theorem formulas_meaning {source file text : String} {precision : Int}
    (haccepted : targetText source file precision = .ok text) {P : Program}
    (htree : Derives source file P) (store : String → ℚ) :
    (∀ e, .expression e ∈ P.formulas → ExpressionMeaning store text e) ∧
      (∀ c, .condition c ∈ P.formulas → ConditionMeaning store text c) := by
  obtain rfl := text_eq_code haccepted htree
  have hwritten := written_of_derives htree
  have hin := P.formulas_in precision
  refine ⟨fun e he => ?_, fun c hc => ?_⟩
  · obtain ⟨htokens, hoccurs⟩ := hin _ he
    exact expressionMeaning store (fun t ht => hwritten t (htokens ht)) hoccurs
  · obtain ⟨htokens, hoccurs⟩ := hin _ hc
    exact conditionMeaning store (fun t ht => hwritten t (htokens ht)) hoccurs

section Mixed

abbrev mixedNumber (text : String) (line column : Int) : Unary :=
  ⟨none, .number (.only (tokenIn "mixed" .number text line column))⟩

def half : Expression :=
  ⟨⟨mixedNumber "1" 1 7, [(⟨tokenIn "mixed" (.operator .slash) "/" 1 9, by simp⟩,
    mixedNumber "2" 1 11)]⟩, []⟩

def equalThenLess : Comparison :=
  ⟨⟨⟨⟨mixedNumber "3" 2 4, []⟩, []⟩,
    [(⟨tokenIn "mixed" (.operator .equal) "==" 2 6, by simp⟩, ⟨⟨mixedNumber "3" 2 9, []⟩, []⟩),
      (⟨tokenIn "mixed" (.operator .less) "<" 2 11, by simp⟩, ⟨⟨mixedNumber "2" 2 13, []⟩, []⟩)]⟩,
    by simp⟩

/-- The tree of the three lines `PRINT 1 / 2`, `IF 3 == 3 < 2 THEN` and `ENDIF`. -/
def mixedTree : Program where
  leading := []
  statements :=
    [.print (wordIn "mixed" .PRINT 1 1) (.value half) (newlineIn "mixed" 1 12),
      .block .ifThen (wordIn "mixed" .IF 2 1)
        equalThenLess (wordIn "mixed" .THEN 2 15) (newlineIn "mixed" 2 19) []
        (wordIn "mixed" .ENDIF 3 1) (newlineIn "mixed" 3 6)]

theorem derives_mixedTree :
    Derives "PRINT 1 / 2\nIF 3 == 3 < 2 THEN\nENDIF" "mixed" mixedTree := by
  have hread :
      (Scanner.start "PRINT 1 / 2\nIF 3 == 3 < 2 THEN\nENDIF" "mixed").readAll.failure = none ∧
      (Scanner.start "PRINT 1 / 2\nIF 3 == 3 < 2 THEN\nENDIF" "mixed").readAll.tokens =
        mixedTree.tokens ++ [tokenIn "mixed" .endOfInput "" 4 1] := by decide +kernel
  exact ⟨hread.1, _, rfl, hread.2⟩

theorem targetText_mixedTree :
    targetText "PRINT 1 / 2\nIF 3 == 3 < 2 THEN\nENDIF" "mixed" 2 = .ok (mixedTree.code 2) :=
  targetText_of_wellNamed derives_mixedTree (by decide +kernel) 2

theorem half_mem : .expression half ∈ mixedTree.formulas := by
  simp [Program.formulas, mixedTree, bodyFormulas, Statement.formulas, Printed.formulas]

theorem equalThenLess_mem : .condition equalThenLess ∈ mixedTree.formulas := by
  simp [Program.formulas, mixedTree, bodyFormulas, Statement.formulas, Comparison.formulas]

theorem formulas_meaning_mixed :
    ExpressionMeaning (fun _ => 0) (mixedTree.code 2) half ∧ ¬ (∀ t ∈ half.row.operands, t.Exact) ∧
      ConditionMeaning (fun _ => 0) (mixedTree.code 2) equalThenLess ∧
      ¬ EqualitiesLast equalThenLess.1.row.operators := by
  have hmeaning := formulas_meaning targetText_mixedTree derives_mixedTree fun _ => 0
  exact ⟨hmeaning.1 half half_mem, by decide +kernel,
    hmeaning.2 equalThenLess equalThenLess_mem, by decide +kernel⟩

/-- C prints 0 for `1 / 2`, and takes `3 == 3 < 2` for false, which is true from left to right. -/
theorem formulas_disagree :
    targetText "PRINT 1 / 2\nIF 3 == 3 < 2 THEN\nENDIF" "mixed" 2 = .ok (mixedTree.code 2) ∧
      Derives "PRINT 1 / 2\nIF 3 == 3 < 2 THEN\nENDIF" "mixed" mixedTree ∧
      .expression half ∈ mixedTree.formulas ∧
      (C.value? (fun _ => 0) (Expression.code half)).map C.Value.toRat = some 0 ∧
      Expression.value (fun _ => 0) half = some (1 / 2) ∧
      .condition equalThenLess ∈ mixedTree.formulas ∧
      (C.value? (fun _ => 0) (Comparison.code equalThenLess)).map C.Value.toRat = some 0 ∧
      Comparison.value (fun _ => 0) equalThenLess = some 1 := by
  have hhalf : (C.value? (fun _ => 0) (Expression.code half)).map C.Value.toRat = some 0 := by
    decide +kernel
  have hless : (C.value? (fun _ => 0) (Comparison.code equalThenLess)).map C.Value.toRat =
      some 0 := by
    decide +kernel
  exact ⟨targetText_mixedTree, derives_mixedTree, half_mem, hhalf, by decide +kernel,
    equalThenLess_mem, hless, by decide +kernel⟩

end Mixed

end TeenyLang
