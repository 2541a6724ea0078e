import TeenyLang.Proofs.ExpressionValue

set_option autoImplicit false

/-!
# The value of a condition

A condition applies its comparisons from left to right; C applies the relations before the
equalities. The two come to the same for all operands exactly if no relation stands after an
equality.
-/
namespace TeenyLang

def Operator.bit (op : Operator) (a b : ℚ) : ℚ :=
  if op.relates a b then 1 else 0

/-- No relation stands after an equality. -/
def EqualitiesLast (ops : List Operator) : Prop :=
  ops.Pairwise fun op later => op.isEquality → later.isEquality

instance (ops : List Operator) : Decidable (EqualitiesLast ops) :=
  inferInstanceAs (Decidable (List.Pairwise _ ops))

def Row.leftToRight (r : Row ℚ) : ℚ :=
  r.fold Operator.bit

/-- The comparisons of a row as C groups them. -/
def Row.relationsFirst (r : Row ℚ) : ℚ :=
  (r.group Operator.isRelation Operator.bit).fold Operator.bit

namespace Row

variable {α β : Type} {level : Operator → Bool} {apply : Operator → α → α → α}

theorem fold_cons (a : α) (x : Operator × α) (tail : List (Operator × α)) :
    fold apply ⟨a, x :: tail⟩ = fold apply ⟨apply x.1 a x.2, tail⟩ :=
  rfl

theorem fold_snoc (r : Row α) (op : Operator) (a : α) :
    (r.snoc op a).fold apply = apply op (r.fold apply) a := by
  simp [fold, snoc]

theorem operators_snoc (r : Row α) (op : Operator) (a : α) :
    (r.snoc op a).operators = r.operators ++ [op] := by
  simp [operators, snoc]

theorem group_of_none {r : Row α} (h : ∀ x ∈ r.tail, level x.1 = false) :
    r.group level apply = r := by
  have hgroup : (r.expand fun a => ⟨a, []⟩).group level apply = _ := group_expand (by simp) h
  rw [expand_single] at hgroup
  simpa [map, fold] using hgroup

theorem fold_group {r : Row α} (hops : ∀ x ∈ r.tail, x.1.isComparison)
    (h : EqualitiesLast r.operators) :
    (r.group Operator.isRelation apply).fold apply = r.fold apply := by
  obtain ⟨a, tail⟩ := r
  induction tail generalizing a with
  | nil => rfl
  | cons x tail ih =>
    obtain ⟨hop, hops⟩ := List.forall_mem_cons.1 hops
    obtain ⟨hlater, htail⟩ := List.pairwise_cons.1 h
    by_cases hrelation : x.1.isRelation
    · have hgroup : group Operator.isRelation apply ⟨a, x :: tail⟩ =
          group Operator.isRelation apply ⟨apply x.1 a x.2, tail⟩ := by
        simp [group, groupFrom, hrelation]
      rw [hgroup, fold_cons, ih _ hops htail]
    · -- From the first equality on there is no relation left to group.
      have hequality : x.1.isEquality := by
        revert hop hrelation
        cases x.1 <;> decide
      have hnone : ∀ y ∈ x :: tail, y.1.isRelation = false := by
        intro y hy
        have hy' : y.1.isEquality := by
          rcases List.mem_cons.1 hy with rfl | hy
          · exact hequality
          · exact hlater y.1 (List.mem_map_of_mem hy) hequality
        revert hy'
        cases y.1 <;> decide
      rw [group_of_none hnone]

/-! ## Grouping and the end of a row -/

theorem groupFrom_concat_other {op : Operator} (hop : level op = false) (a b : α)
    (tail : List (Operator × α)) :
    groupFrom level apply a (tail ++ [(op, b)]) =
      (groupFrom level apply a tail).snoc op b := by
  induction tail generalizing a with
  | nil => simp [groupFrom, hop, snoc]
  | cons x tail ih =>
    by_cases hx : level x.1
    · simp only [List.cons_append, groupFrom, hx, ↓reduceIte, ih]
    · simp only [List.cons_append, groupFrom, hx, ih]
      rfl

theorem group_snoc_other {op : Operator} (hop : level op = false) (r : Row α) (b : α) :
    (r.snoc op b).group level apply = (r.group level apply).snoc op b :=
  groupFrom_concat_other hop r.head b r.tail

def onLast (f : α → α) (a : α) : List (Operator × α) → Row α
  | [] => ⟨f a, []⟩
  | (op, b) :: rest => ⟨a, (op, (onLast f b rest).head) :: (onLast f b rest).tail⟩

theorem onLast_snoc (f : α → α) (r : Row α) (op : Operator) (b : α) :
    onLast f (r.snoc op b).head (r.snoc op b).tail = r.snoc op (f b) := by
  obtain ⟨a, tail⟩ := r
  simp only [snoc]
  induction tail generalizing a with
  | nil => rfl
  | cons x tail ih => simp [onLast, ih x.2]

theorem groupFrom_concat_level {op : Operator} (hop : level op) (a b : α)
    (tail : List (Operator × α)) :
    groupFrom level apply a (tail ++ [(op, b)]) =
      onLast (fun c => apply op c b) (groupFrom level apply a tail).head
        (groupFrom level apply a tail).tail := by
  induction tail generalizing a with
  | nil => simp [groupFrom, hop, onLast]
  | cons x tail ih =>
    by_cases hx : level x.1
    · simp only [List.cons_append, groupFrom, hx, ↓reduceIte, ih]
    · simp only [List.cons_append, groupFrom, hx, ih]
      rfl

/-- An operator of the level at the end goes into the last group. -/
theorem group_snoc_level {op o : Operator} (hop : level op) {r s : Row α} {c : α}
    (h : r.group level apply = s.snoc o c) (b : α) :
    (r.snoc op b).group level apply = s.snoc o (apply op c b) := by
  have hgroup : groupFrom level apply r.head r.tail = s.snoc o c := h
  rw [group, snoc, groupFrom_concat_level hop, hgroup, onLast_snoc]

end Row

/-! ## Operands on which the two differ -/

def IsBit (q : ℚ) : Prop :=
  q = 0 ∨ q = 1

theorem isBit_bit (op : Operator) (a b : ℚ) : IsBit (op.bit a b) := by
  unfold Operator.bit
  split
  · exact .inr rfl
  · exact .inl rfl

section Relation

variable {op : Operator}

theorem exists_bit_eq (hop : op.isRelation) {t : ℚ} (ht : IsBit t) (l r : ℚ) :
    ∃ x, op.bit l x = t ∧ op.bit r x = t := by
  have hhigh : l < max l r + 1 ∧ r < max l r + 1 :=
    ⟨by linarith [le_max_left l r], by linarith [le_max_right l r]⟩
  have hlow : min l r - 1 < l ∧ min l r - 1 < r :=
    ⟨by linarith [min_le_left l r], by linarith [min_le_right l r]⟩
  rcases ht with rfl | rfl
  · cases op with
    | less | lessEqual =>
      refine ⟨min l r - 1, ?_⟩
      simp [Operator.bit, Operator.relates, hlow.1.le, hlow.1, hlow.2.le, hlow.2]
    | greater | greaterEqual =>
      refine ⟨max l r + 1, ?_⟩
      simp [Operator.bit, Operator.relates, hhigh.1.le, hhigh.1, hhigh.2.le, hhigh.2]
    | _ => cases hop
  · cases op with
    | less | lessEqual =>
      refine ⟨max l r + 1, ?_⟩
      simp [Operator.bit, Operator.relates, hhigh.1.le, hhigh.1, hhigh.2.le, hhigh.2]
    | greater | greaterEqual =>
      refine ⟨min l r - 1, ?_⟩
      simp [Operator.bit, Operator.relates, hlow.1.le, hlow.1, hlow.2.le, hlow.2]
    | _ => cases hop

theorem exists_bit_ne_of_lt (hop : op.isRelation) {l r : ℚ} (h : l < r) :
    ∃ x, op.bit l x ≠ op.bit r x := by
  cases op with
  | less | greaterEqual => exact ⟨r, by simp [Operator.bit, Operator.relates, h]⟩
  | lessEqual | greater => exact ⟨l, by simp [Operator.bit, Operator.relates, h]⟩
  | _ => cases hop

theorem exists_bit_ne (hop : op.isRelation) {l r : ℚ} (h : l ≠ r) :
    ∃ x, op.bit l x ≠ op.bit r x := by
  rcases lt_or_gt_of_ne h with hlt | hgt
  · exact exists_bit_ne_of_lt hop hlt
  · obtain ⟨x, hx⟩ := exists_bit_ne_of_lt hop hgt
    exact ⟨x, hx.symm⟩

/-- A relation can be made to tell `l` from what `f` makes of `r`. -/
theorem exists_bit_ne_through (hop : op.isRelation) {l r : ℚ} (f : ℚ → ℚ)
    (h : l ≠ r ∨ ∃ t, IsBit t ∧ f t ≠ t) : ∃ x, op.bit l x ≠ f (op.bit r x) := by
  by_cases hmoves : ∃ t, IsBit t ∧ f t ≠ t
  · obtain ⟨t, ht, hft⟩ := hmoves
    obtain ⟨x, hl, hr⟩ := exists_bit_eq hop ht l r
    exact ⟨x, by rw [hl, hr]; exact hft.symm⟩
  · have hfixes : ∀ t, IsBit t → f t = t := by
      intro t ht
      by_contra hft
      exact hmoves ⟨t, ht, hft⟩
    obtain ⟨x, hx⟩ := exists_bit_ne hop (h.resolve_right hmoves)
    exact ⟨x, by rwa [hfixes _ (isBit_bit op r x)]⟩

end Relation

/-- Operands of a row on which the two readings differ, with what is needed to go on: the last
group of C is the bit `b` after the equality `o`. -/
structure Differs (r s : Row ℚ) (o : Operator) (b : ℚ) : Prop where
  group : r.group Operator.isRelation Operator.bit = s.snoc o b
  isBit : IsBit b
  isBit_left : IsBit r.leftToRight
  ne : r.leftToRight ≠ o.bit s.leftToRight b

theorem Differs.relationsFirst_ne {r s : Row ℚ} {o : Operator} {b : ℚ} (h : Differs r s o b) :
    r.relationsFirst ≠ r.leftToRight := by
  rw [Row.relationsFirst, h.group, Row.fold_snoc]
  exact h.ne.symm

/-- A relation after an equality makes the first difference. -/
theorem differs_first {o op : Operator} (ho : o.isRelation = false) (hop : op.isRelation)
    (r : Row ℚ) :
    ∃ x, Differs ((r.snoc o 2).snoc op x) (r.group Operator.isRelation Operator.bit) o
      (op.bit 2 x) := by
  have hne : o.bit r.leftToRight 2 ≠ 2 := by
    rcases isBit_bit o r.leftToRight 2 with h | h <;> rw [h] <;> norm_num
  obtain ⟨x, hx⟩ := exists_bit_ne_through hop
    (o.bit (r.group Operator.isRelation Operator.bit).leftToRight) (.inl hne)
  have hleft : ((r.snoc o 2).snoc op x).leftToRight = op.bit (o.bit r.leftToRight 2) x := by
    simp only [Row.leftToRight, Row.fold_snoc]
  refine ⟨x, ?_, isBit_bit _ _ _, ?_, ?_⟩
  · exact Row.group_snoc_level hop (Row.group_snoc_other ho r 2) x
  · rw [hleft]
    exact isBit_bit _ _ _
  · rw [hleft]
    exact hx

/-- A difference can be kept whatever comparison comes next. -/
theorem Differs.snoc {r s : Row ℚ} {o op : Operator} {b : ℚ} (h : Differs r s o b)
    (hop : op.isComparison) : ∃ x s' o' b', Differs (r.snoc op x) s' o' b' := by
  by_cases hrelation : op.isRelation
  · have hmoves : r.leftToRight ≠ b ∨ ∃ t, IsBit t ∧ o.bit s.leftToRight t ≠ t := by
      by_cases heq : r.leftToRight = b
      · exact .inr ⟨b, h.isBit, heq ▸ h.ne.symm⟩
      · exact .inl heq
    obtain ⟨x, hx⟩ := exists_bit_ne_through hrelation (o.bit s.leftToRight) hmoves
    have hleft : (r.snoc op x).leftToRight = op.bit r.leftToRight x := Row.fold_snoc r op x
    exact ⟨x, s, o, op.bit b x, Row.group_snoc_level hrelation h.group x, isBit_bit _ _ _,
      hleft ▸ isBit_bit _ _ _, hleft ▸ hx⟩
  · -- An equality with the value from the left holds of that value alone.
    have hother : op.isRelation = false := Bool.not_eq_true _ ▸ hrelation
    have hleft : (r.snoc op r.leftToRight).leftToRight = op.bit r.leftToRight r.leftToRight :=
      Row.fold_snoc r op _
    refine ⟨r.leftToRight, r.group Operator.isRelation Operator.bit, op, r.leftToRight,
      Row.group_snoc_other hother r _, h.isBit_left, hleft ▸ isBit_bit _ _ _, ?_⟩
    have hne : (r.group Operator.isRelation Operator.bit).leftToRight ≠ r.leftToRight :=
      h.relationsFirst_ne
    rw [hleft]
    cases op with
    | equal | notEqual => simp [Operator.bit, Operator.relates, hne]
    | less | lessEqual | greater | greaterEqual => exact absurd rfl hrelation
    | _ => cases hop

/-- A relation that is the first one after an equality stands directly after one. -/
theorem exists_last_equality {ops : List Operator} {op : Operator} (hbefore : EqualitiesLast ops)
    (h : ¬ EqualitiesLast (ops ++ [op])) :
    op.isEquality = false ∧ ∃ before o, ops = before ++ [o] ∧ o.isEquality := by
  have hpair : ∃ a ∈ ops, a.isEquality ∧ op.isEquality = false := by
    by_contra hnone
    refine h (List.pairwise_append.2 ⟨hbefore, List.pairwise_singleton _ _, ?_⟩)
    intro a ha b hb hequality
    rw [List.mem_singleton.1 hb]
    by_contra hop
    exact hnone ⟨a, ha, hequality, Bool.not_eq_true _ ▸ hop⟩
  obtain ⟨a, ha, hequality, hop⟩ := hpair
  refine ⟨hop, ?_⟩
  induction ops using List.reverseRecOn with
  | nil => cases ha
  | append_singleton before o _ =>
    refine ⟨before, o, rfl, ?_⟩
    rcases List.mem_append.1 ha with ha | ha
    · exact (List.pairwise_append.1 hbefore).2.2 a ha o (by simp) hequality
    · rwa [← List.mem_singleton.1 ha]

theorem exists_differs {ops : List Operator} (hops : ∀ op ∈ ops, op.isComparison)
    (h : ¬ EqualitiesLast ops) :
    ∃ r s o b, r.operators = ops ∧ Differs r s o b := by
  -- The first relation after an equality makes a difference, whatever stood before, and every
  -- operator after it can keep one.
  induction ops using List.reverseRecOn with
  | nil => exact absurd List.Pairwise.nil h
  | append_singleton ops op ih =>
    rw [List.forall_mem_append, List.forall_mem_singleton] at hops
    by_cases hbefore : EqualitiesLast ops
    · obtain ⟨hop, before, o, rfl, ho⟩ := exists_last_equality hbefore h
      have hrelation : op.isRelation := by
        have hcomparison := hops.2
        revert hop hcomparison
        cases op <;> decide
      have hother : o.isRelation = false := by
        revert ho
        cases o <;> decide
      obtain ⟨x, hdiffers⟩ :=
        differs_first hother hrelation ⟨0, before.map fun op => (op, 0)⟩
      exact ⟨_, _, _, _, by simp [Row.operators, Row.snoc, Function.comp_def], hdiffers⟩
    · obtain ⟨r, s, o, b, hoperators, hdiffers⟩ := ih hops.1 hbefore
      obtain ⟨x, s', o', b', hdiffers'⟩ := hdiffers.snoc hops.2
      exact ⟨r.snoc op x, s', o', b', by rw [Row.operators_snoc, hoperators], hdiffers'⟩

theorem forall_mem_operators {α : Type} {p : Operator → Prop} {r : Row α} :
    (∀ op ∈ r.operators, p op) ↔ ∀ x ∈ r.tail, p x.1 := by
  simp only [Row.operators, List.forall_mem_map]

/-- C and the order from left to right agree on all operands exactly if the equalities come
last. -/
theorem relationsFirst_eq_iff {ops : List Operator} (hops : ∀ op ∈ ops, op.isComparison) :
    (∀ r : Row ℚ, r.operators = ops → r.relationsFirst = r.leftToRight) ↔ EqualitiesLast ops := by
  constructor
  · intro h
    by_contra hlast
    obtain ⟨r, s, o, b, hoperators, hdiffers⟩ := exists_differs hops hlast
    exact hdiffers.relationsFirst_ne (h r hoperators)
  · rintro h r rfl
    exact Row.fold_group (forall_mem_operators.1 hops) h

/-! ## Conditions in C -/

section Morphism

variable {α : Type} {level : Operator → Bool} {apply : Operator → α → α → α} {D : α → Prop}

theorem fold_defined (hD : ∀ op a b, op.isComparison → (D (apply op a b) ↔ D a ∧ D b))
    {r : Row α} (hops : ∀ x ∈ r.tail, x.1.isComparison) :
    D (r.fold apply) ↔ ∀ a ∈ r.operands, D a := by
  induction r using Row.snoc_induction with
  | single a => simp [Row.fold, Row.operands]
  | snoc r op a ih =>
    rw [Row.snoc, List.forall_mem_append, List.forall_mem_singleton] at hops
    rw [Row.fold_snoc, hD _ _ _ hops.2, ih hops.1, Row.operands_snoc, List.forall_mem_append,
      List.forall_mem_singleton]

theorem group_defined (hD : ∀ op a b, op.isComparison → (D (apply op a b) ↔ D a ∧ D b))
    {r : Row α} (hops : ∀ x ∈ r.tail, x.1.isComparison) :
    (∀ a ∈ (r.group level apply).operands, D a) ↔ ∀ a ∈ r.operands, D a := by
  obtain ⟨a, tail⟩ := r
  simp only [Row.group]
  induction tail generalizing a with
  | nil => rfl
  | cons x tail ih =>
    obtain ⟨hop, hops⟩ := List.forall_mem_cons.1 hops
    by_cases hx : level x.1
    · simp only [Row.groupFrom, hx, ↓reduceIte, ih _ hops]
      simp only [Row.operands, List.map_cons, List.forall_mem_cons, hD _ _ _ hop, and_assoc]
    · have hlater := ih x.2 hops
      simp only [Row.operands, List.forall_mem_cons] at hlater
      simp only [Row.groupFrom, hx, Bool.false_eq_true, ↓reduceIte, Row.operands, List.map_cons,
        List.forall_mem_cons, hlater]

variable {β : Type} {apply' : Operator → β → β → β} {φ : α → β}

theorem fold_map (hD : ∀ op a b, op.isComparison → (D (apply op a b) ↔ D a ∧ D b))
    (hφ : ∀ op a b, op.isComparison → D a → D b → φ (apply op a b) = apply' op (φ a) (φ b))
    {r : Row α} (hops : ∀ x ∈ r.tail, x.1.isComparison) (hr : ∀ a ∈ r.operands, D a) :
    φ (r.fold apply) = (r.map φ).fold apply' := by
  induction r using Row.snoc_induction with
  | single a => rfl
  | snoc r op a ih =>
    rw [Row.snoc, List.forall_mem_append, List.forall_mem_singleton] at hops
    rw [Row.operands_snoc, List.forall_mem_append, List.forall_mem_singleton] at hr
    have hmap : (r.snoc op a).map φ = (r.map φ).snoc op (φ a) := by simp [Row.map, Row.snoc]
    rw [Row.fold_snoc, hφ _ _ _ hops.2 ((fold_defined hD hops.1).2 hr.1) hr.2, ih hops.1 hr.1,
      hmap, Row.fold_snoc]

theorem map_group (hD : ∀ op a b, op.isComparison → (D (apply op a b) ↔ D a ∧ D b))
    (hφ : ∀ op a b, op.isComparison → D a → D b → φ (apply op a b) = apply' op (φ a) (φ b))
    {r : Row α} (hops : ∀ x ∈ r.tail, x.1.isComparison) (hr : ∀ a ∈ r.operands, D a) :
    (r.group level apply).map φ = (r.map φ).group level apply' := by
  obtain ⟨a, tail⟩ := r
  simp only [Row.group, Row.map]
  induction tail generalizing a with
  | nil => rfl
  | cons x tail ih =>
    obtain ⟨hop, hops⟩ := List.forall_mem_cons.1 hops
    simp only [Row.operands, List.map_cons, List.forall_mem_cons] at hr
    obtain ⟨ha, hb, htail⟩ := hr
    by_cases hx : level x.1
    · simp only [List.map_cons, Row.groupFrom, hx, ↓reduceIte]
      rw [ih _ hops (List.forall_mem_cons.2 ⟨(hD _ _ _ hop).2 ⟨ha, hb⟩, htail⟩),
        hφ _ _ _ hop ha hb]
    · have hlater := ih x.2 hops (List.forall_mem_cons.2 ⟨hb, htail⟩)
      simp only [List.map_cons, Row.groupFrom, hx, Bool.false_eq_true, ↓reduceIte, ← hlater]

end Morphism

namespace Grammar

section Store

variable (store : String → ℚ)

def ratIn (x : C.Expr) : ℚ :=
  ((x.eval store).map C.Value.toRat).getD 0

theorem eval_comparison {op : Operator} (hop : op.isComparison) {x y : C.Expr} {a b : C.Value}
    (hx : x.eval store = some a) (hy : y.eval store = some b) :
    (C.Expr.binary op x y).eval store =
      some (.int (if op.relates a.toRat b.toRat then 1 else 0)) := by
  rw [C.Expr.eval, hx, hy]
  cases op with
  | equal | notEqual | less | lessEqual | greater | greaterEqual => rfl
  | _ => cases hop

theorem isSome_eval_comparison (op : Operator) (x y : C.Expr) (hop : op.isComparison) :
    ((C.Expr.binary op x y).eval store).isSome ↔
      (x.eval store).isSome ∧ (y.eval store).isSome := by
  cases hx : x.eval store with
  | none => simp [C.Expr.eval, hx]
  | some a =>
    cases hy : y.eval store with
    | none => simp [C.Expr.eval, hx, hy]
    | some b => simp [eval_comparison store hop hx hy]

theorem ratIn_comparison (op : Operator) (x y : C.Expr) (hop : op.isComparison)
    (hx : (x.eval store).isSome) (hy : (y.eval store).isSome) :
    ratIn store (.binary op x y) = op.bit (ratIn store x) (ratIn store y) := by
  obtain ⟨a, ha⟩ := Option.isSome_iff_exists.1 hx
  obtain ⟨b, hb⟩ := Option.isSome_iff_exists.1 hy
  rw [ratIn, eval_comparison store hop ha hb, ratIn, ratIn, ha, hb]
  change ((if op.relates a.toRat b.toRat then 1 else 0 : ℤ) : ℚ) = op.bit a.toRat b.toRat
  unfold Operator.bit
  split <;> simp

theorem Comparison.map_row_comparison (c : Comparison) :
    ∀ x ∈ (c.1.row.map Expression.tree).tail, x.1.isComparison :=
  Row.forall_mem_map (p := fun op => op.isComparison) c.row_comparison

theorem Comparison.group_comparison (c : Comparison) :
    ∀ x ∈ ((c.1.row.map Expression.tree).group Operator.isRelation C.Expr.binary).tail,
      x.1.isComparison := by
  intro x hx
  exact (forall_mem_operators (p := fun op => op.isComparison)).2 c.map_row_comparison x.1
    (Row.mem_group_tail hx).2

theorem forall_operands_map {α β : Type} {p : β → Prop} {f : α → β} {r : Row α} :
    (∀ b ∈ (r.map f).operands, p b) ↔ ∀ a ∈ r.operands, p (f a) := by
  have hmap : (r.map f).operands = r.operands.map f := by
    simp [Row.operands, Row.map, Function.comp_def]
  rw [hmap, List.forall_mem_map]

theorem Comparison.isSome_eval (c : Comparison) :
    ((Comparison.tree c).eval store).isSome ↔
      ∀ e ∈ c.1.row.operands, ((Expression.tree e).eval store).isSome := by
  have hD := isSome_eval_comparison store
  rw [Comparison.tree, fold_defined (D := fun x : C.Expr => (x.eval store).isSome) hD
    c.group_comparison, group_defined (D := fun x : C.Expr => (x.eval store).isSome) hD
    c.map_row_comparison, forall_operands_map]

theorem Comparison.ratIn_tree {c : Comparison}
    (h : ∀ e ∈ c.1.row.operands, ((Expression.tree e).eval store).isSome) :
    ratIn store (Comparison.tree c) =
      (c.1.row.map fun e => ratIn store (Expression.tree e)).relationsFirst := by
  have hD := isSome_eval_comparison store
  have hφ := ratIn_comparison store
  have hoperands : ∀ x ∈ (c.1.row.map Expression.tree).operands, (x.eval store).isSome :=
    forall_operands_map.2 h
  have hmap : (c.1.row.map Expression.tree).map (ratIn store) =
      c.1.row.map fun e => ratIn store (Expression.tree e) := by
    simp [Row.map]
  rw [Comparison.tree, fold_map (D := fun x : C.Expr => (x.eval store).isSome) hD hφ
      c.group_comparison ((group_defined (D := fun x : C.Expr => (x.eval store).isSome) hD
        c.map_row_comparison).2 hoperands),
    map_group (D := fun x : C.Expr => (x.eval store).isSome) hD hφ c.map_row_comparison hoperands,
    hmap, Row.relationsFirst]

end Store

end Grammar

end TeenyLang
