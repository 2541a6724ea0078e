import TeenyLang.Proofs.ExpressionReading
import TeenyLang.Proofs.Quotients
import Mathlib.Data.List.Induction

set_option autoImplicit false

/-!
# The value of an expression

The meaning of an expression in exact arithmetic: there is one type of numbers, and the operators
of each repetition are applied from left to right. Beside it, the value that C gives to the
translation.
-/
namespace TeenyLang

namespace Row

variable {α β γ : Type}

def operands (r : Row α) : List α :=
  r.head :: r.tail.map Prod.snd

def take (k : ℕ) (r : Row α) : Row α :=
  ⟨r.head, r.tail.take k⟩

def snoc (r : Row α) (op : Operator) (a : α) : Row α :=
  ⟨r.head, r.tail ++ [(op, a)]⟩

theorem snoc_induction {motive : Row α → Prop} (single : ∀ a, motive ⟨a, []⟩)
    (snoc : ∀ r op a, motive r → motive (snoc r op a)) (r : Row α) : motive r := by
  obtain ⟨a, tail⟩ := r
  induction tail using List.reverseRecOn with
  | nil => exact single a
  | append_singleton tail x ih => exact snoc ⟨a, tail⟩ x.1 x.2 ih

theorem operands_snoc (r : Row α) (op : Operator) (a : α) :
    (r.snoc op a).operands = r.operands ++ [a] := by
  simp [operands, snoc]

variable {apply : Operator → β → β → Option β}

theorem value_snoc (valueOf : α → Option β) (r : Row α) (op : Operator) (a : α) :
    (r.snoc op a).value apply valueOf =
      (r.value apply valueOf).bind fun v => (valueOf a).bind (apply op v) := by
  simp only [value, snoc, List.foldlM_append, List.foldlM_cons, List.foldlM_nil]
  cases valueOf r.head with
  | none => rfl
  | some v => simp

theorem value_map (valueOf : γ → Option β) (f : α → γ) (r : Row α) :
    (r.map f).value apply valueOf = r.value apply fun a => valueOf (f a) := by
  simp only [value, map, List.foldlM_map]

theorem value_congr {valueOf valueOf' : α → Option β} {r : Row α}
    (h : ∀ a ∈ r.operands, valueOf a = valueOf' a) :
    r.value apply valueOf = r.value apply valueOf' := by
  induction r using snoc_induction with
  | single a => simp [value, h a (by simp [operands])]
  | snoc r op a ih =>
    rw [operands_snoc, List.forall_mem_append, List.forall_mem_singleton] at h
    rw [value_snoc, value_snoc, ih h.1, h.2]

theorem isSome_value {valueOf : α → Option β} {r : Row α}
    (htotal : ∀ x ∈ r.tail, ∀ a b, (apply x.1 a b).isSome) :
    (r.value apply valueOf).isSome ↔ ∀ a ∈ r.operands, (valueOf a).isSome := by
  induction r using snoc_induction with
  | single a => cases h : valueOf a <;> simp [value, operands, h]
  | snoc r op a ih =>
    rw [snoc, List.forall_mem_append, List.forall_mem_singleton] at htotal
    rw [operands_snoc, List.forall_mem_append, List.forall_mem_singleton, ← ih htotal.1, value_snoc]
    cases r.value apply valueOf with
    | none => simp
    | some v =>
      cases valueOf a with
      | none => simp
      | some w => simpa using htotal.2 v w

theorem take_snoc (r : Row α) (op : Operator) (a : α) (k : ℕ) :
    (r.snoc op a).take (min k r.tail.length) = r.take k := by
  have hle : min k r.tail.length ≤ r.tail.length := Nat.min_le_right _ _
  simp [take, snoc, List.take_append_of_le_length hle, List.take_eq_take_min]

theorem operands_take_subset {r : Row α} (k : ℕ) {a : α} (h : a ∈ (r.take k).operands) :
    a ∈ r.operands := by
  rcases List.mem_cons.1 h with rfl | h
  · exact List.mem_cons_self
  · exact List.mem_cons_of_mem _ (List.map_subset _ (List.take_subset k r.tail) h)

end Row

namespace C

theorem eval_fold (store : String → ℚ) (r : Row Expr) :
    (r.fold .binary).eval store = r.value Value.binary (Expr.eval store) := by
  induction r using Row.snoc_induction with
  | single e => simp [Row.fold, Row.value]
  | snoc r op e ih =>
    have hfold : (r.snoc op e).fold .binary = .binary op (r.fold .binary) e := by
      simp [Row.fold, Row.snoc]
    rw [hfold, Row.value_snoc, Expr.eval, ih]

section Agreement

variable {α : Type} {f : α → Option Value} {g : α → Option ℚ} {r : Row α}

theorem toRat_value
    (hops : ∀ x ∈ r.tail, ∀ a b, (Value.binary x.1 a b).map Value.toRat =
      x.1.apply a.toRat b.toRat)
    (h : ∀ a ∈ r.operands, (f a).map Value.toRat = g a) :
    (r.value Value.binary f).map Value.toRat = r.value Operator.apply g := by
  induction r using Row.snoc_induction with
  | single a => simpa [Row.value, Row.operands] using h
  | snoc r op a ih =>
    rw [Row.snoc, List.forall_mem_append, List.forall_mem_singleton] at hops
    rw [Row.operands_snoc, List.forall_mem_append, List.forall_mem_singleton] at h
    rw [Row.value_snoc, Row.value_snoc, ← ih hops.1 h.1, ← h.2]
    cases r.value Value.binary f with
    | none => rfl
    | some v =>
      cases f a with
      | none => rfl
      | some w => exact hops.2 v w

theorem binary_sum {op : Operator} (hop : op.isSum) (a b : Value) :
    (Value.binary op a b).map Value.toRat = op.apply a.toRat b.toRat := by
  cases op with
  | plus => exact congrArg some (Value.toRat_lift Int.cast_add a b)
  | minus => exact congrArg some (Value.toRat_lift Int.cast_sub a b)
  | _ => cases hop

theorem binary_total {op : Operator} (hop : op.isSum ∨ op.isComparison) (a b : Value) :
    (Value.binary op a b).isSome := by
  cases op with
  | slash | assign => rcases hop with hop | hop <;> cases hop
  | _ => rfl

theorem apply_total {op : Operator} (hop : op.isSum ∨ op.isComparison) (a b : ℚ) :
    (op.apply a b).isSome := by
  cases op with
  | slash | assign => rcases hop with hop | hop <;> cases hop
  | _ => rfl

theorem apply_sum_cancel {op : Operator} (hop : op.isSum) {v a b : ℚ}
    (h : op.apply v a = op.apply v b) : a = b := by
  cases op with
  | plus | minus =>
    simp only [Operator.apply, Option.some.injEq] at h
    linarith
  | _ => cases hop

/-- Sums that agree at every operator have operands that agree. -/
theorem toRat_operands (hops : ∀ x ∈ r.tail, x.1.isSum)
    (hf : ∀ a ∈ r.operands, (f a).isSome) (hg : ∀ a ∈ r.operands, (g a).isSome)
    (h : ∀ k, ((r.take k).value Value.binary f).map Value.toRat =
      (r.take k).value Operator.apply g) :
    ∀ a ∈ r.operands, (f a).map Value.toRat = g a := by
  induction r using Row.snoc_induction with
  | single a => simpa [Row.operands, Row.take, Row.value] using h 0
  | snoc r op a ih =>
    rw [Row.operands_snoc, List.forall_mem_append, List.forall_mem_singleton] at hf hg ⊢
    rw [Row.snoc, List.forall_mem_append, List.forall_mem_singleton] at hops
    have hbefore := ih hops.1 hf.1 hg.1 fun k => by
      rw [← Row.take_snoc r op a k]
      exact h _
    refine ⟨hbefore, ?_⟩
    -- The whole row agrees and so does the row before `a`, which can be cancelled.
    have hrow := toRat_value (fun x hx => binary_sum (hops.1 x hx)) hbefore
    have hall := h (r.tail.length + 1)
    have htake : (r.snoc op a).take (r.tail.length + 1) = r.snoc op a := by
      rw [Row.take, List.take_of_length_le (by simp [Row.snoc])]
    have hvalue : (r.value Value.binary f).isSome :=
      (Row.isSome_value fun x hx => binary_total (.inl (hops.1 x hx))).2 hf.1
    rw [htake, Row.value_snoc, Row.value_snoc, ← hrow] at hall
    obtain ⟨c, hc⟩ := Option.isSome_iff_exists.1 hvalue
    obtain ⟨d, hd⟩ := Option.isSome_iff_exists.1 hf.2
    obtain ⟨w, hw⟩ := Option.isSome_iff_exists.1 hg.2
    simp only [hc, hd, hw, Option.bind_some, Option.map_some] at hall ⊢
    rw [binary_sum hops.2] at hall
    rw [apply_sum_cancel hops.2 hall]

end Agreement

end C

namespace Grammar

/-! ## Exact values -/

def numberValue (text : List Char) : ℚ :=
  let whole := text.takeWhile (· ≠ '.')
  let fraction := (text.dropWhile (· ≠ '.')).tail
  C.digitsValue 10 (whole ++ fraction) / 10 ^ fraction.length

def Primary.value (values : String → ℚ) : Primary → ℚ
  | number t => numberValue t.1.text.toList
  | ident t => values t.1.text

def Unary.signed {α : Type} [Neg α] (u : Unary) (a : α) : α :=
  match u.sign with
  | some sign => if operatorOf sign.1 = .minus then -a else a
  | none => a

def Unary.value (values : String → ℚ) (u : Unary) : ℚ :=
  u.signed (u.operand.value values)

def Term.value (values : String → ℚ) (t : Term) : Option ℚ :=
  t.row.value Operator.apply fun u => some (u.value values)

def Expression.value (values : String → ℚ) (e : Expression) : Option ℚ :=
  e.row.value Operator.apply (Term.value values)

def Comparison.value (values : String → ℚ) (c : Comparison) : Option ℚ :=
  c.1.row.value Operator.apply (Expression.value values)

/-- The integer that a number without a point is for C. -/
def Primary.int? : Primary → Option ℤ
  | number t =>
    if '.' ∈ t.1.text.toList then none else some (C.digitsValue 10 t.1.text.toList)
  | ident _ => none

def Unary.int? (u : Unary) : Option ℤ :=
  u.operand.int?.map u.signed

/-- No division of an integer by an integer in the term leaves a remainder. -/
def Term.Exact (t : Term) : Prop :=
  C.ExactFrom t.head.int? (t.row.map Unary.int?).tail

instance (t : Term) : Decidable t.Exact :=
  inferInstanceAs (Decidable (C.ExactFrom _ _))

/-! ## Constants -/

theorem digitsValue_append (xs ys : List Char) :
    C.digitsValue 10 (xs ++ ys) =
      ys.foldl (fun n c => 10 * n + (c.toNat - '0'.toNat)) (C.digitsValue 10 xs) := by
  rw [C.digitsValue, List.foldl_append]
  rfl

theorem digitsValue_stripZeros (digits : List Char) :
    C.digitsValue 10 (stripZeros digits) = C.digitsValue 10 digits := by
  have hdrop : C.digitsValue 10 (digits.dropWhile (· = '0')) = C.digitsValue 10 digits := by
    induction digits with
    | nil => rfl
    | cons c digits ih =>
      by_cases hc : c = '0'
      · subst hc
        rw [List.dropWhile_cons_of_pos (by simp), ih]
        rfl
      · rw [List.dropWhile_cons_of_neg (by simpa using hc)]
  unfold stripZeros
  split
  · next hnil =>
    rw [List.isEmpty_iff] at hnil
    rw [← hdrop, hnil]
    rfl
  · exact hdrop

theorem stripZeros_octal (digits : List Char) :
    (1 < (stripZeros digits).length && (stripZeros digits).head? = some '0') = false := by
  unfold stripZeros
  split
  · rfl
  · have hhead := Lexical.head_dropWhile (p := (· = '0')) digits
    cases hdrop : digits.dropWhile (· = '0') with
    | nil => rfl
    | cons c rest =>
      have hc := hhead c (by rw [hdrop]; rfl)
      simp only [decide_eq_false_iff_not] at hc
      simp [hc]

theorem constant_whole {digits : List Char} (h : ∀ c ∈ digits, c.isDigit) :
    C.constant? (Target.numberChars digits) = some (.int (C.digitsValue 10 digits)) := by
  have hstrip := stripZeros_digits h
  rw [numberChars_whole h, C.constant?, List.takeWhile_eq_self_iff.2 hstrip,
    List.dropWhile_eq_nil_iff.2 hstrip]
  simp only [stripZeros_octal, Bool.false_eq_true, ↓reduceIte, digitsValue_stripZeros]

theorem constant_decimal {whole fraction : List Char} (hwhole : ∀ c ∈ whole, c.isDigit)
    (hfraction : ∀ c ∈ fraction, c.isDigit) :
    C.constant? (Target.numberChars (whole ++ '.' :: fraction)) =
      some (.real (C.digitsValue 10 (whole ++ fraction) / 10 ^ fraction.length)) := by
  have hstrip := stripZeros_digits hwhole
  have hpoint : ∀ c ∈ ('.' :: fraction).head?, c.isDigit = false := by simp
  have hdigits : fraction.all Char.isDigit := List.all_eq_true.2 hfraction
  rw [numberChars_decimal hwhole, C.constant?, Lexical.takeWhile_run hstrip hpoint,
    Lexical.dropWhile_run hstrip hpoint]
  simp only [hdigits, ↓reduceIte]
  rw [digitsValue_append, digitsValue_stripZeros, ← digitsValue_append]

theorem numberValue_whole {digits : List Char} (h : '.' ∉ digits) :
    numberValue digits = C.digitsValue 10 digits := by
  have hpoint : ∀ c ∈ digits, decide (c ≠ '.') := by
    intro c hc
    have hne : c ≠ '.' := fun heq => h (heq ▸ hc)
    simpa using hne
  rw [numberValue, List.takeWhile_eq_self_iff.2 hpoint, List.dropWhile_eq_nil_iff.2 hpoint]
  simp

theorem numberValue_decimal {whole : List Char} (h : ∀ c ∈ whole, c.isDigit)
    (fraction : List Char) :
    numberValue (whole ++ '.' :: fraction) =
      C.digitsValue 10 (whole ++ fraction) / 10 ^ fraction.length := by
  have hpoint : ∀ c ∈ ('.' :: fraction).head?, decide (c ≠ '.') = false := by simp
  rw [numberValue, Lexical.takeWhile_run (digit_ne_point h) hpoint,
    Lexical.dropWhile_run (digit_ne_point h) hpoint]
  rfl

/-! ## Operands -/

def Unary.cValue (values : String → ℚ) (u : Unary) : C.Value :=
  match u.int? with
  | some n => .int n
  | none => .real (u.value values)

theorem Unary.signed_cast (u : Unary) (n : ℤ) : ((u.signed n : ℤ) : ℚ) = u.signed (n : ℚ) := by
  obtain ⟨sign, operand⟩ := u
  cases sign with
  | none => rfl
  | some sign =>
    by_cases hsign : operatorOf sign.1 = .minus <;> simp [Unary.signed, hsign]

theorem Primary.value_of_int? {x : Primary} {n : ℤ} (h : x.int? = some n)
    (values : String → ℚ) : x.value values = n := by
  cases x with
  | ident t => cases h
  | number t =>
    by_cases hpoint : '.' ∈ t.1.text.toList
    · simp [Primary.int?, hpoint] at h
    · simp only [Primary.int?, hpoint, ↓reduceIte, Option.some.injEq] at h
      rw [Primary.value, numberValue_whole hpoint, ← h]
      rfl

theorem Unary.toRat_cValue (values : String → ℚ) (u : Unary) :
    (u.cValue values).toRat = u.value values := by
  cases hint : u.operand.int? with
  | none => simp [Unary.cValue, Unary.int?, hint, C.Value.toRat]
  | some n =>
    simp only [Unary.cValue, Unary.int?, hint, Option.map_some, C.Value.toRat, Unary.value,
      Primary.value_of_int? hint values]
    exact Unary.signed_cast u n

theorem Unary.int?_cValue (values : String → ℚ) (u : Unary) :
    (u.cValue values).int? = u.int? := by
  unfold Unary.cValue
  cases u.int? <;> rfl

section Store

variable (store : String → ℚ)

/-- The values of the variables whose C names have the values of `store`. -/
def valuesIn : String → ℚ :=
  fun name => store (Target.name name)

theorem Primary.eval {x : Primary} (h : Written x.token) :
    x.tree.eval store = some (match x.int? with
      | some n => .int n
      | none => .real (x.value (valuesIn store))) := by
  cases x with
  | ident t => simp [Primary.tree, C.Expr.eval, Primary.int?, Primary.value, valuesIn]
  | number t =>
    obtain ⟨lexeme, hspells⟩ := h
    have hkind : t.1.kind = .number := List.mem_singleton.1 t.2
    simp only [Primary.token, hkind] at hspells
    simp only [Primary.tree, C.Expr.eval, Target.number, String.toList_ofList, Primary.int?,
      Primary.value]
    generalize t.1.text = text at hspells
    cases hspells with
    | whole hne hdigits =>
      have hpoint : '.' ∉ lexeme := fun hmem => absurd (hdigits _ hmem) (by decide)
      rw [String.toList_ofList, constant_whole hdigits, if_neg hpoint]
    | decimal hne hwhole hne' hfraction =>
      rw [String.toList_ofList, constant_decimal hwhole hfraction, if_pos (by simp),
        numberValue_decimal hwhole]

theorem Unary.eval {u : Unary} (h : ∀ t ∈ u.tokens, Written t) :
    u.tree.eval store = some (u.cValue (valuesIn store)) := by
  obtain ⟨sign, operand⟩ := u
  have hoperand : operand.tree.eval store = _ := Primary.eval store (h _ (by simp [Unary.tokens]))
  cases sign with
  | none =>
    rw [Unary.tree, hoperand]
    cases hint : operand.int? <;>
      simp [Unary.cValue, Unary.int?, Unary.value, Unary.signed, hint]
  | some sign =>
    rw [Unary.tree, C.Expr.eval, hoperand]
    rcases (operatorOf_sum sign.2).2 with hop | hop <;> cases hint : operand.int? <;>
      simp [Unary.cValue, Unary.int?, Unary.value, Unary.signed, C.Value.signed, hint, hop]

theorem written_operands {operators : List Kind} {α : Type} {tokens : α → List Token}
    {c : Chain operators α} (h : ∀ t ∈ c.tokens tokens, Written t) :
    ∀ a ∈ c.row.operands, ∀ t ∈ tokens a, Written t := by
  rw [Chain.tokens, List.forall_mem_append] at h
  rw [Row.operands, List.forall_mem_cons]
  refine ⟨h.1, ?_⟩
  simp only [Chain.row, List.map_map, List.forall_mem_map]
  intro link hlink t ht
  exact h.2 t (List.mem_flatMap.2 ⟨link, hlink, List.mem_cons_of_mem _ ht⟩)

/-! ## Terms -/

def Term.cTail (values : String → ℚ) (t : Term) : List (Operator × C.Value) :=
  (t.row.map (Unary.cValue values)).tail

theorem Term.eval {t : Term} (h : ∀ u ∈ Term.tokens t, Written u) :
    (Term.tree t).eval store =
      C.runC (t.head.cValue (valuesIn store)) (Term.cTail (valuesIn store) t) := by
  have hoperands : ∀ u ∈ t.row.operands,
      u.tree.eval store = some (u.cValue (valuesIn store)) :=
    fun u hu => Unary.eval store (written_operands h u hu)
  rw [Term.tree, C.eval_fold, Row.value_map, Row.value_congr hoperands]
  simp [Row.value, C.runC, Term.cTail, Row.map, List.foldlM_map, Chain.row]

theorem Term.value_eq (values : String → ℚ) (t : Term) :
    Term.value values t =
      C.runExact (t.head.cValue values).toRat (Term.cTail values t) := by
  simp [Term.value, Row.value, C.runExact, Term.cTail, Row.map, List.foldlM_map, Chain.row,
    Unary.toRat_cValue]

theorem Term.cTail_product (values : String → ℚ) (t : Term) :
    ∀ x ∈ Term.cTail values t, x.1.isProduct :=
  Row.forall_mem_map (p := fun op => op.isProduct) t.row_product

theorem Term.isSome_eval {t : Term} (h : ∀ u ∈ Term.tokens t, Written u) :
    ((Term.tree t).eval store).isSome = (Term.value (valuesIn store) t).isSome := by
  rw [Term.eval store h, Term.value_eq]
  exact C.isSome_run (fun x hx => .inl (Term.cTail_product _ t x hx)) _ _

/-- C gives a term its exact value exactly if none of its quotients of integers leaves a
remainder, or the value is zero. -/
theorem Term.agrees_iff {t : Term} (h : ∀ u ∈ Term.tokens t, Written u)
    (hdefined : (Term.value (valuesIn store) t).isSome) :
    ((Term.tree t).eval store).map C.Value.toRat = Term.value (valuesIn store) t ↔
      Term.value (valuesIn store) t = some 0 ∨ t.Exact := by
  have hdefined' := hdefined
  rw [← Term.isSome_eval store h] at hdefined'
  obtain ⟨v, hv⟩ := Option.isSome_iff_exists.1 hdefined
  obtain ⟨c, hc⟩ := Option.isSome_iff_exists.1 hdefined'
  have hrun := C.run_eq_iff (Term.cTail_product (valuesIn store) t)
    (Term.eval store h ▸ hc) (Term.value_eq (valuesIn store) t ▸ hv)
  have hexact : C.ExactFrom (t.head.cValue (valuesIn store)).int?
      ((Term.cTail (valuesIn store) t).map fun x => (x.1, x.2.int?)) ↔ t.Exact := by
    simp [Term.Exact, Term.cTail, Row.map, Unary.int?_cValue, Function.comp_def]
  rw [hexact] at hrun
  rw [hc, hv, Option.map_some, Option.some.injEq, Option.some.injEq]
  exact hrun

/-! ## Expressions -/

def Expression.leading (k : ℕ) (e : Expression) : Expression :=
  ⟨e.head, e.tail.take k⟩

theorem Expression.row_leading (k : ℕ) (e : Expression) :
    Chain.row (Expression.leading k e) = e.row.take k := by
  simp [Chain.row, Expression.leading, Row.take, List.map_take]

theorem Expression.eval (e : Expression) :
    (Expression.tree e).eval store =
      e.row.value C.Value.binary fun t => (Term.tree t).eval store := by
  rw [Expression.tree, C.eval_fold, Row.value_map]

theorem Expression.isSome_value (values : String → ℚ) (e : Expression) :
    (Expression.value values e).isSome ↔ ∀ t ∈ e.row.operands, (Term.value values t).isSome :=
  Row.isSome_value fun x hx => C.apply_total (.inl (Expression.row_sum e x hx))

theorem Expression.isSome_eval {e : Expression} (h : ∀ t ∈ Expression.tokens e, Written t) :
    ((Expression.tree e).eval store).isSome = (Expression.value (valuesIn store) e).isSome := by
  have hterms := written_operands h
  rw [Bool.eq_iff_iff, Expression.eval, Expression.isSome_value, Row.isSome_value fun x hx =>
    C.binary_total (.inl (Expression.row_sum e x hx))]
  refine forall₂_congr fun t ht => ?_
  rw [Term.isSome_eval store (hterms t ht)]

theorem Expression.agrees {e : Expression}
    (h : ∀ t ∈ e.row.operands,
      ((Term.tree t).eval store).map C.Value.toRat = Term.value (valuesIn store) t) :
    ((Expression.tree e).eval store).map C.Value.toRat = Expression.value (valuesIn store) e := by
  rw [Expression.eval]
  exact C.toRat_value (fun x hx => C.binary_sum (Expression.row_sum e x hx)) h

/-- C gives every leading part of an expression its exact value exactly if it does so for every
term. -/
theorem Expression.leading_agree_iff {e : Expression}
    (h : ∀ t ∈ Expression.tokens e, Written t)
    (hdefined : (Expression.value (valuesIn store) e).isSome) :
    (∀ k, ((Expression.tree (e.leading k)).eval store).map C.Value.toRat =
        Expression.value (valuesIn store) (e.leading k)) ↔
      ∀ t ∈ e.row.operands, Term.value (valuesIn store) t = some 0 ∨ t.Exact := by
  have hterms := written_operands h
  have hvalues := (Expression.isSome_value _ e).1 hdefined
  have hagree : (∀ t ∈ e.row.operands, Term.value (valuesIn store) t = some 0 ∨ t.Exact) ↔
      ∀ t ∈ e.row.operands,
        ((Term.tree t).eval store).map C.Value.toRat = Term.value (valuesIn store) t :=
    forall₂_congr fun t ht => (Term.agrees_iff store (hterms t ht) (hvalues t ht)).symm
  rw [hagree]
  constructor
  · intro hleading
    refine C.toRat_operands (Expression.row_sum e) (fun t ht => ?_) hvalues fun k => ?_
    · rw [Term.isSome_eval store (hterms t ht)]
      exact hvalues t ht
    · have hk := hleading k
      rwa [Expression.eval, Expression.value, Expression.row_leading] at hk
  · intro hoperands k
    refine Expression.agrees store fun t ht => hoperands t ?_
    rw [Expression.row_leading] at ht
    exact Row.operands_take_subset k ht

end Store

end Grammar

end TeenyLang
