import TeenyLang.Proofs.CGrammar
import TeenyLang.Proofs.EmittedTokens

set_option autoImplicit false

/-!
# How C reads the translation of an expression

The translation of an expression is read as the tree of the expression, with the repetitions
grouped from the left. In a condition C puts the relations together before the equalities,
whatever their order is.
-/
namespace TeenyLang.Grammar

def Chain.row {operators : List Kind} {α : Type} (c : Chain operators α) : Row α :=
  ⟨c.head, c.tail.map fun link => (operatorOf link.1.1, link.2)⟩

/-! ## The trees -/

def Primary.tree : Primary → C.Expr
  | number t => .constant (Target.number t.1.text).toList
  | ident t => .named (Target.name t.1.text).toList

def Unary.tree (u : Unary) : C.Expr :=
  match u.sign with
  | some sign => .signed (operatorOf sign.1) u.operand.tree
  | none => u.operand.tree

def Term.tree (t : Term) : C.Expr :=
  (t.row.map Unary.tree).fold .binary

def Expression.tree (e : Expression) : C.Expr :=
  (e.row.map Term.tree).fold .binary

def Comparison.tree (c : Comparison) : C.Expr :=
  ((c.1.row.map Expression.tree).group Operator.isRelation .binary).fold .binary

/-! ## The rows -/

theorem Unary.isUnary {u : Unary} (h : ∀ t ∈ u.tokens, Written t) :
    C.IsUnary (u.tokens.map cToken) u.tree := by
  obtain ⟨sign, operand⟩ := u
  have hoperand : C.IsUnary [cToken operand.token] operand.tree := by
    cases operand with
    | number t =>
      rw [Primary.token, cToken_number]
      exact .number _
    | ident t =>
      rw [Primary.token, cToken_identifier]
      exact .name _
  cases sign with
  | none => exact hoperand
  | some sign =>
    obtain ⟨hkind, hop⟩ := operatorOf_sum sign.2
    have hsum : (operatorOf sign.1).isSum := by rcases hop with hop | hop <;> rw [hop] <;> rfl
    have hsign : Written sign.1 := h sign.1 (by simp [Unary.tokens])
    have hsigned := hoperand.signed hsum
    rw [← cToken_operator hsign hkind] at hsigned
    exact hsigned

section Chains

variable {operators : List Kind} {α : Type}

theorem mem_row_tail {p : Operator → Prop} (h : ∀ k ∈ operators, ∃ op, k = .operator op ∧ p op)
    (c : Chain operators α) : ∀ x ∈ c.row.tail, p x.1 := by
  intro x hx
  obtain ⟨link, _, rfl⟩ := List.mem_map.1 hx
  exact (leaf_operator h link.1).2

theorem Chain.spelt {tokens : α → List Token} {f : α → Row C.Expr}
    (hoperators : ∀ k ∈ operators, ∃ op, k = .operator op ∧ op ≠ .assign)
    (hspelt : ∀ a, (∀ t ∈ tokens a, Written t) → C.Spelt C.IsUnary ((tokens a).map cToken) (f a))
    {c : Chain operators α} (h : ∀ t ∈ c.tokens tokens, Written t) :
    C.Spelt C.IsUnary ((c.tokens tokens).map cToken) (c.row.expand f) := by
  obtain ⟨a, tail⟩ := c
  induction tail generalizing a with
  | nil =>
    have hhead := hspelt a (by simpa [Chain.tokens] using h)
    simpa [Chain.tokens, Chain.row, Row.expand] using hhead
  | cons link tail ih =>
    rw [Chain.tokens_cons, List.forall_mem_append, List.forall_mem_cons] at h
    obtain ⟨hhead, hlink, htail⟩ := h
    obtain ⟨hkind, hassign⟩ := leaf_operator hoperators link.1
    have happend := (hspelt a hhead).append hassign (ih link.2 htail)
    rw [Chain.tokens_cons, List.map_append, List.map_cons, cToken_operator hlink hkind]
    simpa [Chain.row, Row.expand] using happend

end Chains

theorem Term.spelt {t : Term} (h : ∀ u ∈ Term.tokens t, Written u) :
    C.Spelt C.IsUnary ((Term.tokens t).map cToken) (t.row.map Unary.tree) := by
  rw [← Row.expand_single]
  exact Chain.spelt (by simp) (fun _ hu => .single (Unary.isUnary hu)) h

theorem Expression.spelt {e : Expression} (h : ∀ t ∈ Expression.tokens e, Written t) :
    C.Spelt C.IsUnary ((Expression.tokens e).map cToken)
      (e.row.expand fun t => t.row.map Unary.tree) :=
  Chain.spelt (by simp) (fun _ => Term.spelt) h

theorem Comparison.spelt {c : Comparison} (h : ∀ t ∈ Comparison.tokens c, Written t) :
    C.Spelt C.IsUnary ((Comparison.tokens c).map cToken)
      (c.1.row.expand fun e => e.row.expand fun t => t.row.map Unary.tree) :=
  Chain.spelt (by simp) (fun _ => Expression.spelt) h

theorem read_of_spelt {code : String} {ts : List Token} {r : Row C.Expr} (hlexes : Lexes code ts)
    (hspelt : C.Spelt C.IsUnary (ts.map cToken) r) {e : C.Expr}
    (hgrouped : C.grouped .binary r = ⟨e, []⟩) : C.read code = some e := by
  have htokens := hlexes [] (by simp [C.Ends])
  rw [List.append_nil, C.tokens_nil, Option.map_some, List.append_nil] at htokens
  simp [C.read, htokens, C.readOperand_iff_spelt.2 hspelt, hgrouped]

theorem Term.row_product (t : Term) : ∀ x ∈ t.row.tail, x.1.isProduct :=
  mem_row_tail (p := fun op => op.isProduct) (by simp [Operator.isProduct]) t

theorem Expression.row_sum (e : Expression) : ∀ x ∈ e.row.tail, x.1.isSum :=
  mem_row_tail (p := fun op => op.isSum) (by simp [Operator.isSum]) e

theorem Comparison.row_comparison (c : Comparison) : ∀ x ∈ c.1.row.tail, x.1.isComparison :=
  mem_row_tail (p := fun op => op.isComparison) (by simp [Operator.isComparison]) c.1

theorem isSum_levels {op : Operator} (h : op.isSum) : op.isProduct = false := by
  cases op with
  | plus | minus => rfl
  | _ => cases h

theorem isComparison_levels {op : Operator} (h : op.isComparison) :
    op.isProduct = false ∧ op.isSum = false ∧ (op.isRelation = false → op.isEquality) := by
  cases op with
  | equal | notEqual | less | lessEqual | greater | greaterEqual => exact ⟨rfl, rfl, by decide⟩
  | _ => cases h

theorem group_products {r : Row Term} (h : ∀ x ∈ r.tail, x.1.isProduct = false) :
    (r.expand fun t => t.row.map Unary.tree).group Operator.isProduct .binary =
      r.map Term.tree :=
  Row.group_expand (fun t => Row.forall_mem_map (p := fun op => op.isProduct) t.row_product) h

theorem group_sums {r : Row Expression} (h : ∀ x ∈ r.tail, x.1.isSum = false) :
    (r.expand fun e => e.row.map Term.tree).group Operator.isSum .binary =
      r.map Expression.tree :=
  Row.group_expand (fun e => Row.forall_mem_map (p := fun op => op.isSum) (Expression.row_sum e)) h

theorem Expression.read {e : Expression} (h : ∀ t ∈ Expression.tokens e, Written t) :
    C.read (Expression.code e) = some (Expression.tree e) := by
  refine read_of_spelt (Expression.lexes h) (Expression.spelt h) ?_
  have hsums : (e.row.map Term.tree).group Operator.isSum .binary = ⟨Expression.tree e, []⟩ :=
    Row.group_of_all (Row.forall_mem_map (p := fun op => op.isSum) (Expression.row_sum e))
  rw [C.grouped, group_products fun x hx => isSum_levels (Expression.row_sum e x hx), hsums]
  rfl

/-- The translation of a condition is read with its relations grouped before its equalities. -/
theorem Comparison.read {c : Comparison} (h : ∀ t ∈ Comparison.tokens c, Written t) :
    C.read (Comparison.code c) = some (Comparison.tree c) := by
  refine read_of_spelt (Comparison.lexes h) (Comparison.spelt h) ?_
  have hrow := c.row_comparison
  have hproducts : ∀ x ∈ (c.1.row.expand Chain.row).tail, x.1.isProduct = false :=
    Row.forall_mem_expand (p := fun op => op.isProduct = false)
      (fun x hx => (isComparison_levels (hrow x hx)).1)
      fun e x hx => isSum_levels (Expression.row_sum e x hx)
  have hequalities : ∀ x ∈ ((c.1.row.map Expression.tree).group Operator.isRelation
      C.Expr.binary).tail, x.1.isEquality := by
    intro x hx
    obtain ⟨hrelation, hmem⟩ := Row.mem_group_tail hx
    obtain ⟨y, hy, hxy⟩ := List.mem_map.1 hmem
    have hcomparison := Row.forall_mem_map (p := fun op => op.isComparison) hrow y hy
    rw [hxy] at hcomparison
    exact (isComparison_levels hcomparison).2.2 hrelation
  rw [C.grouped, ← Row.expand_expand, group_products hproducts, Row.map_expand,
    group_sums fun x hx => (isComparison_levels (hrow x hx)).2.1, Row.group_of_all hequalities]
  rfl

end TeenyLang.Grammar
