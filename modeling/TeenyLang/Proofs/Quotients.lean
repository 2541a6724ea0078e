import TeenyLang.Proofs.CExpression
import Mathlib.Algebra.Order.Ring.Abs
import Mathlib.Data.Nat.Cast.Order.Field
import Mathlib.Tactic.Linarith
import Mathlib.Tactic.Positivity.Core

set_option autoImplicit false

/-!
# Quotients that are cut off

What becomes of a row of products and quotients when C cuts off the quotients of integers. The
result of C never exceeds the exact one in absolute value. As soon as a quotient leaves a remainder
it falls behind, and it can only catch up by a factor of zero.
-/
namespace TeenyLang

/-- The exact value of an operation; division by zero has none. -/
def Operator.apply (op : Operator) (a b : ℚ) : Option ℚ :=
  match op with
  | .plus => some (a + b)
  | .minus => some (a - b)
  | .asterisk => some (a * b)
  | .slash => if b = 0 then none else some (a / b)
  | .assign => none
  | op => some (if op.relates a b then 1 else 0)

namespace C

namespace Value

def int? : Value → Option ℤ
  | int n => some n
  | real _ => none

theorem toRat_lift {onInt : ℤ → ℤ → ℤ} {onRat : ℚ → ℚ → ℚ}
    (h : ∀ a b : ℤ, (onInt a b : ℚ) = onRat a b) (a b : Value) :
    (lift onInt onRat a b).toRat = onRat a.toRat b.toRat := by
  cases a <;> cases b <;> simp [lift, toRat, h]

theorem toRat_mul (a b : Value) :
    (lift (· * ·) (· * ·) a b).toRat = a.toRat * b.toRat :=
  toRat_lift Int.cast_mul a b

end Value

/-! ## One quotient -/

theorem abs_tdiv (a b : ℤ) : |((a.tdiv b : ℤ) : ℚ)| = ((a.natAbs / b.natAbs : ℕ) : ℚ) := by
  rw [← Int.cast_abs, Int.abs_eq_natAbs, Int.natAbs_tdiv]
  rfl

theorem abs_div_eq (a b : ℤ) : |(a : ℚ) / b| = (a.natAbs : ℚ) / b.natAbs := by
  rw [abs_div, ← Int.cast_abs, ← Int.cast_abs, Int.abs_eq_natAbs, Int.abs_eq_natAbs]
  rfl

theorem abs_tdiv_le (a b : ℤ) : |((a.tdiv b : ℤ) : ℚ)| ≤ |(a : ℚ) / b| := by
  rw [abs_tdiv, abs_div_eq]
  exact Nat.cast_div_le

theorem tdiv_eq_of_dvd {a b : ℤ} (hb : b ≠ 0) (h : b ∣ a) : ((a.tdiv b : ℤ) : ℚ) = a / b := by
  obtain ⟨k, rfl⟩ := h
  have hb' : (b : ℚ) ≠ 0 := by exact_mod_cast hb
  rw [Int.mul_tdiv_cancel_left k hb, Int.cast_mul, mul_div_cancel_left₀ _ hb']

theorem abs_tdiv_lt {a b : ℤ} (hb : b ≠ 0) (h : ¬ b ∣ a) :
    |((a.tdiv b : ℤ) : ℚ)| < |(a : ℚ) / b| := by
  refine lt_of_le_of_ne (abs_tdiv_le a b) fun heq => h ?_
  have hpos : (b.natAbs : ℚ) ≠ 0 := by exact_mod_cast Int.natAbs_ne_zero.2 hb
  rw [abs_tdiv, abs_div_eq, eq_div_iff hpos] at heq
  have hnat : a.natAbs / b.natAbs * b.natAbs = a.natAbs := by exact_mod_cast heq
  exact Int.natAbs_dvd_natAbs.1 (Dvd.intro_left _ hnat)

/-- The value of C, `c`, has fallen behind the exact one, or both are zero. -/
def Behind (c v : ℚ) : Prop :=
  |c| < |v| ∨ (c = 0 ∧ v = 0)

theorem Behind.eq_iff {c v : ℚ} (h : Behind c v) : c = v ↔ v = 0 := by
  rcases h with h | ⟨rfl, rfl⟩
  · constructor
    · rintro rfl
      exact absurd h (lt_irrefl _)
    · rintro rfl
      rw [abs_zero] at h
      exact absurd h (not_lt.2 (abs_nonneg c))
  · simp

theorem Behind.mul {c v : ℚ} (h : Behind c v) (w : ℚ) : Behind (c * w) (v * w) := by
  rcases h with h | ⟨rfl, rfl⟩
  · by_cases hw : w = 0
    · right
      simp [hw]
    · left
      rw [abs_mul, abs_mul]
      exact mul_lt_mul_of_pos_right h (abs_pos.2 hw)
  · right
    simp

theorem Behind.of_le {c d v : ℚ} (h : Behind d v) (hle : |c| ≤ |d|) : Behind c v := by
  rcases h with h | ⟨rfl, rfl⟩
  · exact .inl (lt_of_le_of_lt hle h)
  · rw [abs_zero] at hle
    exact .inr ⟨abs_eq_zero.1 (le_antisymm hle (abs_nonneg c)), rfl⟩

theorem Behind.div {c v : ℚ} (h : Behind c v) (w : ℚ) : Behind (c / w) (v / w) := by
  rw [div_eq_mul_inv, div_eq_mul_inv]
  exact h.mul w⁻¹

/-! ## A row of products and quotients -/

/-- No quotient of integers leaves a remainder. The operands that are no integers are `none`;
from the first of them on there are no quotients of integers any more. -/
def ExactFrom : Option ℤ → List (Operator × Option ℤ) → Prop
  | some a, (op, some b) :: rest =>
    if op = .slash then b ∣ a ∧ ExactFrom (some (a.tdiv b)) rest
    else ExactFrom (some (a * b)) rest
  | _, _ => True

def decideExactFrom : (a : Option ℤ) → (tail : List (Operator × Option ℤ)) →
    Decidable (ExactFrom a tail)
  | none, tail => .isTrue (by cases tail <;> simp [ExactFrom])
  | some _, [] => .isTrue (by simp [ExactFrom])
  | some _, (_, none) :: _ => .isTrue (by simp [ExactFrom])
  | some a, (op, some b) :: rest =>
    have := decideExactFrom (some (a.tdiv b)) rest
    have := decideExactFrom (some (a * b)) rest
    decidable_of_iff' _ (Iff.of_eq (ExactFrom.eq_1 a op b rest))

instance (a : Option ℤ) (tail : List (Operator × Option ℤ)) : Decidable (ExactFrom a tail) :=
  decideExactFrom a tail

@[simp] theorem exactFrom_none (tail : List (Operator × Option ℤ)) : ExactFrom none tail := by
  cases tail <;> simp [ExactFrom]

theorem abs_toRat_div_le (a b : Value) :
    |(Value.lift Int.tdiv (· / ·) a b).toRat| ≤ |a.toRat / b.toRat| := by
  cases a with
  | real a => rfl
  | int a =>
    cases b with
    | real b => rfl
    | int b => exact abs_tdiv_le a b

theorem isSome_binary {op : Operator} (hop : op.isProduct ∨ op.isSum) (c w : Value) (v : ℚ) :
    (Value.binary op c w).isSome = (op.apply v w.toRat).isSome := by
  cases op with
  | slash => by_cases hw : w.toRat = 0 <;> simp [Value.binary, Operator.apply, hw]
  | plus | minus | asterisk => rfl
  | _ => rcases hop with hop | hop <;> cases hop

theorem behind_step {op : Operator} (hop : op.isProduct) {c w d : Value} {v u : ℚ}
    (h : Behind c.toRat v) (hc : Value.binary op c w = some d)
    (hv : op.apply v w.toRat = some u) : Behind d.toRat u := by
  cases op with
  | asterisk =>
    cases hc
    cases hv
    rw [Value.toRat_mul]
    exact h.mul w.toRat
  | slash =>
    by_cases hw : w.toRat = 0
    · simp [Value.binary, hw] at hc
    · simp only [Value.binary, Operator.apply, hw, ↓reduceIte, Option.some.injEq] at hc hv
      rw [← hc, ← hv]
      exact (h.div w.toRat).of_le (abs_toRat_div_le c w)
  | _ => cases hop

/-- As long as the values are the same, a step keeps them so or leaves a remainder. -/
theorem exact_step {op : Operator} (hop : op.isProduct) {c w d : Value} {u : ℚ}
    (hc : Value.binary op c w = some d) (hv : op.apply c.toRat w.toRat = some u)
    (rest : List (Operator × Option ℤ)) :
    (d.toRat = u ∧ (ExactFrom c.int? ((op, w.int?) :: rest) ↔ ExactFrom d.int? rest)) ∨
      (Behind d.toRat u ∧ ¬ ExactFrom c.int? ((op, w.int?) :: rest)) := by
  cases op with
  | asterisk =>
    cases hc
    cases hv
    refine .inl ⟨Value.toRat_mul c w, ?_⟩
    cases c <;> cases w <;> simp [ExactFrom, Value.int?, Value.lift]
  | slash =>
    by_cases hw : w.toRat = 0
    · simp [Value.binary, hw] at hc
    simp only [Value.binary, Operator.apply, hw, ↓reduceIte, Option.some.injEq] at hc hv
    rw [← hc, ← hv]
    cases c with
    | real c => exact .inl ⟨rfl, by simp [Value.int?, Value.lift]⟩
    | int a =>
      cases w with
      | real w => exact .inl ⟨rfl, by simp [ExactFrom, Value.int?, Value.lift]⟩
      | int b =>
        have hb : b ≠ 0 := by
          rintro rfl
          exact hw rfl
        by_cases hdvd : b ∣ a
        · exact .inl ⟨tdiv_eq_of_dvd hb hdvd, by simp [ExactFrom, Value.int?, Value.lift, hdvd]⟩
        · exact .inr ⟨.inl (abs_tdiv_lt hb hdvd), by simp [ExactFrom, Value.int?, hdvd]⟩
  | _ => cases hop

section Run

variable {tail : List (Operator × Value)}

def runC (c : Value) (tail : List (Operator × Value)) : Option Value :=
  tail.foldlM (fun a x => Value.binary x.1 a x.2) c

def runExact (v : ℚ) (tail : List (Operator × Value)) : Option ℚ :=
  tail.foldlM (fun a x => x.1.apply a x.2.toRat) v

theorem runC_cons {c d : Value} {x : Operator × Value} :
    runC c (x :: tail) = some d ↔ ∃ e, Value.binary x.1 c x.2 = some e ∧ runC e tail = some d := by
  simp [runC, Option.bind_eq_some_iff]

theorem runExact_cons {v u : ℚ} {x : Operator × Value} :
    runExact v (x :: tail) = some u ↔
      ∃ w, x.1.apply v x.2.toRat = some w ∧ runExact w tail = some u := by
  simp [runExact, Option.bind_eq_some_iff]

/-- Both come to a value, or neither: a quotient fails by its divisor alone. -/
theorem isSome_run (hops : ∀ x ∈ tail, x.1.isProduct ∨ x.1.isSum) (c : Value) (v : ℚ) :
    (runC c tail).isSome = (runExact v tail).isSome := by
  induction tail generalizing c v with
  | nil => rfl
  | cons x tail ih =>
    obtain ⟨hop, hops⟩ := List.forall_mem_cons.1 hops
    have hstep := isSome_binary hop c x.2 v
    simp only [runC, runExact, List.foldlM_cons]
    cases hc : Value.binary x.1 c x.2 with
    | none =>
      rw [hc] at hstep
      cases hv : x.1.apply v x.2.toRat with
      | none => rfl
      | some w => simp [hv] at hstep
    | some d =>
      rw [hc] at hstep
      cases hv : x.1.apply v x.2.toRat with
      | none => simp [hv] at hstep
      | some w => exact ih hops d w

theorem behind_run (hops : ∀ x ∈ tail, x.1.isProduct) {c d : Value} {v u : ℚ}
    (h : Behind c.toRat v) (hc : runC c tail = some d) (hv : runExact v tail = some u) :
    Behind d.toRat u := by
  induction tail generalizing c v with
  | nil =>
    cases hc
    cases hv
    exact h
  | cons x tail ih =>
    obtain ⟨hop, hops⟩ := List.forall_mem_cons.1 hops
    obtain ⟨e, hstep, hc⟩ := runC_cons.1 hc
    obtain ⟨w, hstep', hv⟩ := runExact_cons.1 hv
    exact ih hops (behind_step hop h hstep hstep') hc hv

/-- C and exact arithmetic come to the same value exactly if no quotient of integers leaves a
remainder, or the value is zero. -/
theorem run_eq_iff (hops : ∀ x ∈ tail, x.1.isProduct) {c d : Value} {u : ℚ}
    (hc : runC c tail = some d) (hv : runExact c.toRat tail = some u) :
    d.toRat = u ↔ u = 0 ∨ ExactFrom c.int? (tail.map fun x => (x.1, x.2.int?)) := by
  -- The induction runs along the values that agree; from the first remainder on C is behind.
  induction tail generalizing c with
  | nil =>
    cases hc
    cases hv
    cases d <;> simp [ExactFrom, Value.int?]
  | cons x tail ih =>
    obtain ⟨hop, hops⟩ := List.forall_mem_cons.1 hops
    obtain ⟨e, hstep, hc⟩ := runC_cons.1 hc
    obtain ⟨w, hstep', hv⟩ := runExact_cons.1 hv
    rcases exact_step hop hstep hstep' (tail.map fun x => (x.1, x.2.int?)) with
      ⟨rfl, hexact⟩ | ⟨hbehind, hinexact⟩
    · rw [ih hops hc hv, List.map_cons, hexact]
    · rw [(behind_run hops hbehind hc hv).eq_iff, List.map_cons]
      simp only [hinexact, or_false]

end Run

end C

end TeenyLang
