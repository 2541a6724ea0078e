import TeenyLang.Parser.Expression
import TeenyLang.Proofs.Outcome

set_option autoImplicit false

/-!
# Runs of the expression rules

Each rule against the trees of its symbol. A rule that has the tokens of a tree ahead does with the
record what the tree says, provided that the next token cannot extend the tree.
-/
namespace TeenyLang.Parser

open Grammar

variable {σ : Type}

theorem ends_operand (x : Primary) (p : Parser σ) :
    Ends (operand x.token p) () (p.record.run x.uses x.code) p.lookahead := by
  cases x with
  | number t =>
    have hkind : t.1.kind = .number := List.mem_singleton.1 t.2
    simp only [operand, Primary.token, hkind]
    exact ends_emit _ p
  | ident t =>
    have hkind : t.1.kind = .identifier := List.mem_singleton.1 t.2
    simp only [operand, Primary.token, hkind]
    refine Ends.get ?_
    change Ends _ () ((p.record.use ⟨.read, t.1⟩).bind Except.ok |>.map _) _
    by_cases hn : p.variableNames.contains t.1.text = true
    · have huse : p.record.use ⟨.read, t.1⟩ = .ok p.record := if_pos hn
      simp only [hn, ↓reduceIte, huse]
      exact ends_emit _ p
    · have huse : p.record.use ⟨.read, t.1⟩ = .error _ := if_neg hn
      simp only [hn, Bool.false_eq_true, ↓reduceIte, huse]
      exact ends_failAt _ _ p () p.lookahead

variable [TokenSupply σ]

theorem ends_primary (x : Primary) {p : Parser σ} {l : Lookahead σ}
    (h : Passes p.lookahead [x.token] l) :
    Ends (primary p) () (p.record.run x.uses x.code) l := by
  have hcurrent : p.current = x.token := h.head_eq
  refine Ends.get (Ends.bind_silent (ends_note _ p) fun q hq _ => ?_)
  rw [hcurrent]
  refine Ends.bind_then_silent (ends_operand x q) fun q' hq' _ => ?_
  rw [← hq, ← hq'] at h
  exact (ends_advance h).discard

theorem ends_unary (u : Unary) {p : Parser σ} {l : Lookahead σ}
    (h : Passes p.lookahead u.tokens l) :
    Ends (unary p) () (p.record.run u.uses u.code) l := by
  obtain ⟨sign, operand⟩ := u
  refine Ends.bind_silent (ends_note _ p) fun q hq _ => Ends.get ?_
  rw [← hq] at h
  cases sign with
  | none =>
    have hsign : isSign q.current.kind = false := by
      have hcurrent : q.current = operand.token := h.head_eq
      rw [hcurrent]
      cases operand with
      | number t | ident t => rw [Primary.token, List.mem_singleton.1 t.2]; rfl
    simp only [hsign, Bool.false_eq_true, ↓reduceIte]
    exact ends_primary operand h
  | some sign =>
    have hsign : isSign q.current.kind = true := by
      have hcurrent : q.current = sign.1 := h.head_eq
      rw [hcurrent]
      have := sign.2
      simp only [List.mem_cons, List.not_mem_nil, or_false] at this
      simpa [isSign] using this
    simp only [hsign, ↓reduceIte]
    obtain ⟨m, hm, hl⟩ := h.uncons
    refine Ends.bind_silent (ends_advance hm) fun q' hq' _ => ?_
    refine Ends.bind_write (ends_emit _ q') fun q'' hq'' _ => ?_
    rw [← hq', ← hq''] at hl
    exact ends_primary operand hl

/-- The loop over operators and operands, on the links of a chain. -/
theorem ends_operatorTail {α : Type} {operators : List Kind} {test : Kind → Bool}
    {operand : Rule σ Unit} {consumes : Consumes operand} {tokens : α → List Token}
    {uses : α → List Use} {code : α → String} (follows : Kind → Prop)
    (hoperator : ∀ k ∈ operators, test k = true ∧ follows k)
    (hoperand : ∀ (a : α) (p : Parser σ) (l : Lookahead σ), Passes p.lookahead (tokens a) l →
      follows l.current.kind → Ends (operand p) () (p.record.run (uses a) (code a)) l)
    (links : List (Leaf operators × α)) {p : Parser σ} {l : Lookahead σ}
    (h : Passes p.lookahead (links.flatMap (linkTokens tokens)) l)
    (hstop : test l.current.kind = false) (hfollows : follows l.current.kind) :
    Ends (operatorTail test operand consumes p) ()
      (p.record.run (links.flatMap fun link => uses link.2) (concatMap (linkCode code) links))
      l := by
  refine ends_whileCurrent (linkTokens tokens) follows links ?_ ?_ rfl h hstop hfollows
  · intro link _ p l _ hlink hl
    obtain ⟨m, hop, ha⟩ := hlink.uncons
    refine Ends.bind_silent (ends_advance hop) fun q hq _ => ?_
    refine Ends.bind_write (ends_emit _ q) fun q' hq' _ => ?_
    rw [← hq, ← hq'] at ha
    exact hoperand link.2 q' l ha hl
  · intro link _
    exact ⟨link.1.1, tokens link.2, rfl, hoperator _ link.1.2⟩

/-- A rule that reads an operand and then operators and operands, on a chain. -/
theorem ends_chain {α : Type} {operators : List Kind} {test : Kind → Bool} {title : String}
    {operand : Rule σ Unit} {consumes : Consumes operand} {tokens : α → List Token}
    {uses : α → List Use} {code : α → String} (follows : Kind → Prop)
    (hoperator : ∀ k ∈ operators, test k = true ∧ follows k)
    (hoperand : ∀ (a : α) (p : Parser σ) (l : Lookahead σ), Passes p.lookahead (tokens a) l →
      follows l.current.kind → Ends (operand p) () (p.record.run (uses a) (code a)) l)
    (c : Chain operators α) {p : Parser σ} {l : Lookahead σ}
    (h : Passes p.lookahead (c.tokens tokens) l)
    (hstop : test l.current.kind = false) (hfollows : follows l.current.kind) :
    Ends ((do note title; operand; operatorTail test operand consumes : Rule σ Unit) p) ()
      (p.record.run (c.uses uses) (c.code code)) l := by
  refine Ends.bind_silent (ends_note _ p) fun q hq _ => ?_
  rw [← hq] at h
  obtain ⟨m, hhead, htail⟩ := h.split
  have hm : follows m.current.kind := by
    cases hlinks : c.tail with
    | nil =>
      rw [hlinks] at htail
      cases Passes.nil_iff.1 htail
      exact hfollows
    | cons link links =>
      rw [hlinks, List.flatMap_cons] at htail
      rw [htail.head_eq]
      exact (hoperator _ link.1.2).2
  refine Ends.bind (hoperand c.head q m hhead hm) fun q' hq' _ => ?_
  rw [← hq'] at htail
  exact ends_operatorTail follows hoperator hoperand c.tail htail hstop hfollows

theorem ends_term (t : Term) {p : Parser σ} {l : Lookahead σ}
    (h : Passes p.lookahead (Term.tokens t) l)
    (hstop : isFactorOperator l.current.kind = false) :
    Ends (term p) () (p.record.run (Term.uses t) (Term.code t)) l := by
  refine ends_chain (fun _ => True) ?_ ?_ t h hstop trivial
  · decide
  · intro u p l hu _
    exact ends_unary u hu

/-- A kind that neither a term nor an expression can go on with. -/
def StopsExpression (kind : Kind) : Prop :=
  isFactorOperator kind = false ∧ isSign kind = false

theorem ends_expression (e : Expression) {p : Parser σ} {l : Lookahead σ}
    (h : Passes p.lookahead (Expression.tokens e) l) (hstop : StopsExpression l.current.kind) :
    Ends (expression p) () (p.record.run (Expression.uses e) (Expression.code e)) l := by
  refine ends_chain (fun k => isFactorOperator k = false) ?_ ?_ e h hstop.2 hstop.1
  · decide
  · intro t p l ht hl
    exact ends_term t ht hl

theorem stopsExpression_of_comparison {kind : Kind} (h : kind ∈ comparisonOperators) :
    StopsExpression kind := by
  revert kind
  unfold StopsExpression
  decide

theorem isComparison_iff (kind : Kind) :
    kind.isComparison = true ↔ kind ∈ comparisonOperators := by
  cases kind with
  | operator op => cases op <;> decide
  | keyword word => simp [Kind.isComparison]
  | _ => decide

theorem ends_comparison (c : Comparison) {p : Parser σ} {l : Lookahead σ}
    (h : Passes p.lookahead (Comparison.tokens c) l) (hstop : StopsExpression l.current.kind)
    (hlast : l.current.kind.isComparison = false) :
    Ends (comparison p) () (p.record.run (Comparison.uses c) (Comparison.code c)) l := by
  obtain ⟨⟨head, tail⟩, htail⟩ := c
  obtain ⟨link, links, rfl⟩ := List.exists_cons_of_ne_nil htail
  refine Ends.bind_silent (ends_note _ p) fun q hq _ => ?_
  rw [← hq] at h
  obtain ⟨m, hhead, hlinks⟩ := h.split
  have hoperator : m.current = link.1.1 := hlinks.head_eq
  refine Ends.bind (ends_expression head hhead ?_) fun q' hq' _ => Ends.get ?_
  · rw [hoperator]
    exact stopsExpression_of_comparison link.1.2
  · rw [← hq'] at hlinks
    have hcurrent : q'.current = link.1.1 := hlinks.head_eq
    simp only [hcurrent, (isComparison_iff _).2 link.1.2, ↓reduceIte]
    refine ends_operatorTail StopsExpression ?_ ?_ _ hlinks hlast hstop
    · intro k hk
      exact ⟨(isComparison_iff k).2 hk, stopsExpression_of_comparison hk⟩
    · intro e p l he hl
      exact ends_expression e he hl

end TeenyLang.Parser
