import TeenyLang.Proofs.CText
import Mathlib.Algebra.Order.Field.Rat

set_option autoImplicit false

/-!
# C expressions

How C reads the expressions that have no brackets, and what they come to when its arithmetic is
taken to be exact. Products bind most tightly, then sums, then the four relations, and equality
and inequality least; operators of one level group from the left. A constant without a point is an
integer, and the quotient of two integers is cut off towards zero.
-/
namespace TeenyLang

structure Row (α : Type) where
  head : α
  tail : List (Operator × α)

namespace Row

variable {α β : Type}

def operators (r : Row α) : List Operator :=
  r.tail.map Prod.fst

def map (f : α → β) (r : Row α) : Row β :=
  ⟨f r.head, r.tail.map fun x => (x.1, f x.2)⟩

def expand (f : α → Row β) (r : Row α) : Row β :=
  ⟨(f r.head).head,
    (f r.head).tail ++ r.tail.flatMap fun x => (x.1, (f x.2).head) :: (f x.2).tail⟩

def fold (apply : Operator → α → α → α) (r : Row α) : α :=
  r.tail.foldl (fun a x => apply x.1 a x.2) r.head

def value (apply : Operator → β → β → Option β) (valueOf : α → Option β) (r : Row α) : Option β :=
  (valueOf r.head).bind fun v =>
    r.tail.foldlM (fun a x => (valueOf x.2).bind (apply x.1 a)) v

/-- The operators of one level applied from left to right; the others are left as they are. -/
def groupFrom (level : Operator → Bool) (apply : Operator → α → α → α) (a : α) :
    List (Operator × α) → Row α
  | [] => ⟨a, []⟩
  | (op, b) :: rest =>
    if level op then groupFrom level apply (apply op a b) rest
    else
      let later := groupFrom level apply b rest
      ⟨a, (op, later.head) :: later.tail⟩

def group (level : Operator → Bool) (apply : Operator → α → α → α) (r : Row α) : Row α :=
  groupFrom level apply r.head r.tail

end Row

namespace Operator

def isProduct : Operator → Bool
  | asterisk | slash => true
  | _ => false

def isSum : Operator → Bool
  | plus | minus => true
  | _ => false

def isRelation : Operator → Bool
  | less | lessEqual | greater | greaterEqual => true
  | _ => false

def isEquality : Operator → Bool
  | equal | notEqual => true
  | _ => false

def relates : Operator → ℚ → ℚ → Bool
  | equal, a, b => a = b
  | notEqual, a, b => a ≠ b
  | less, a, b => a < b
  | lessEqual, a, b => a ≤ b
  | greater, a, b => b < a
  | greaterEqual, a, b => b ≤ a
  | _, _, _ => false

end Operator

namespace C

inductive Expr where
  | constant (text : List Char)
  | named (name : List Char)
  | signed (sign : Operator) (e : Expr)
  | binary (op : Operator) (left right : Expr)
deriving DecidableEq, Repr

/-! ## Reading -/

/-- The signs before an operand, the innermost first. -/
def Expr.withSigns (signs : List Operator) (e : Expr) : Expr :=
  signs.foldl (fun e sign => .signed sign e) e

def binaryOperator? (text : List Char) : Option Operator :=
  [(['+'], Operator.plus), (['-'], .minus), (['*'], .asterisk), (['/'], .slash),
    (['=', '='], .equal), (['!', '='], .notEqual), (['<'], .less), (['<', '='], .lessEqual),
    (['>'], .greater), (['>', '='], .greaterEqual)].lookup text

mutual

/-- The operands and the operators of a sequence of tokens that goes on with an operand, after
the given signs. -/
def readOperand (signs : List Operator) : List CToken → Option (Row Expr)
  | .name text :: ts => (readTail ts).map fun tail => ⟨.withSigns signs (.named text), tail⟩
  | .number text :: ts => (readTail ts).map fun tail => ⟨.withSigns signs (.constant text), tail⟩
  | .punctuator text :: ts =>
    if text = ['+'] then readOperand (.plus :: signs) ts
    else if text = ['-'] then readOperand (.minus :: signs) ts
    else none
  | [] => none

def readTail : List CToken → Option (List (Operator × Expr))
  | [] => some []
  | .punctuator text :: ts =>
    (binaryOperator? text).bind fun op =>
      (readOperand [] ts).map fun r => (op, r.head) :: r.tail
  | _ => none

end

/-- The grouping of a row by the four levels, one after the other. -/
def grouped {α : Type} (apply : Operator → α → α → α) (r : Row α) : Row α :=
  (((r.group Operator.isProduct apply).group Operator.isSum apply).group
    Operator.isRelation apply).group Operator.isEquality apply

def read (text : String) : Option Expr :=
  (tokens text.toList).bind fun ts =>
    (readOperand [] ts).bind fun r =>
      match grouped .binary r with
      | ⟨e, []⟩ => some e
      | _ => none

/-! ## Values -/

inductive Value where
  | int (n : ℤ)
  | real (q : ℚ)
deriving DecidableEq

namespace Value

def toRat : Value → ℚ
  | int n => n
  | real q => q

def signed : Operator → Value → Option Value
  | .plus, v => some v
  | .minus, int n => some (int (-n))
  | .minus, real q => some (real (-q))
  | _, _ => none

/-- An operation on two integers, or on two numbers of which one is no integer. -/
def lift (onInt : ℤ → ℤ → ℤ) (onRat : ℚ → ℚ → ℚ) : Value → Value → Value
  | int a, int b => int (onInt a b)
  | a, b => real (onRat a.toRat b.toRat)

def binary (op : Operator) (a b : Value) : Option Value :=
  match op with
  | .plus => some (lift (· + ·) (· + ·) a b)
  | .minus => some (lift (· - ·) (· - ·) a b)
  | .asterisk => some (lift (· * ·) (· * ·) a b)
  | .slash => if b.toRat = 0 then none else some (lift Int.tdiv (· / ·) a b)
  | .assign => none
  | op => some (int (if op.relates a.toRat b.toRat then 1 else 0))

end Value

def digitsValue (base : ℕ) (digits : List Char) : ℕ :=
  digits.foldl (fun n c => base * n + (c.toNat - '0'.toNat)) 0

/-- The value of a constant: an integer, in octal after a leading zero, or a number with a
point. -/
def constant? (text : List Char) : Option Value :=
  let whole := text.takeWhile Char.isDigit
  match text.dropWhile Char.isDigit with
  | [] =>
    if 1 < whole.length && whole.head? = some '0' then
      if whole.all (· < '8') then some (.int (digitsValue 8 whole)) else none
    else some (.int (digitsValue 10 whole))
  | '.' :: fraction =>
    if fraction.all Char.isDigit then
      some (.real (digitsValue 10 (whole ++ fraction) / 10 ^ fraction.length))
    else none
  | _ => none

def Expr.eval (store : String → ℚ) : Expr → Option Value
  | constant text => constant? text
  | named name => some (.real (store (.ofList name)))
  | signed sign e => (e.eval store).bind (Value.signed sign)
  | binary op left right =>
    (left.eval store).bind fun a => (right.eval store).bind fun b => Value.binary op a b

def value? (store : String → ℚ) (text : String) : Option Value :=
  (read text).bind (Expr.eval store)

end C

/-! ## Grouping -/

namespace Row

variable {α β : Type} {level : Operator → Bool} {apply : Operator → α → α → α}

theorem groupFrom_run {run : List (Operator × α)} (hrun : ∀ x ∈ run, level x.1) (a : α)
    (rest : List (Operator × α)) :
    groupFrom level apply a (run ++ rest) =
      groupFrom level apply (fold apply ⟨a, run⟩) rest := by
  induction run generalizing a with
  | nil => rfl
  | cons x run ih =>
    obtain ⟨op, b⟩ := x
    obtain ⟨hop, hrun⟩ := List.forall_mem_cons.1 hrun
    rw [List.cons_append, groupFrom, if_pos hop, ih hrun]
    rfl

theorem group_of_all {r : Row α} (h : ∀ x ∈ r.tail, level x.1) :
    r.group level apply = ⟨r.fold apply, []⟩ := by
  have hrun := @groupFrom_run α level apply r.tail h r.head []
  rwa [List.append_nil] at hrun

/-- Operands that are rows of one level come together, and the operators between them stay. -/
theorem group_expand {f : β → Row α} (hinner : ∀ b, ∀ x ∈ (f b).tail, level x.1) {r : Row β}
    (houter : ∀ x ∈ r.tail, level x.1 = false) :
    (r.expand f).group level apply = r.map fun b => (f b).fold apply := by
  obtain ⟨b, tail⟩ := r
  simp only [group, expand, map]
  induction tail generalizing b with
  | nil =>
    rw [List.flatMap_nil, groupFrom_run (hinner b)]
    rfl
  | cons x tail ih =>
    obtain ⟨op, c⟩ := x
    obtain ⟨hop, htail⟩ := List.forall_mem_cons.1 houter
    have hop : level op = false := hop
    rw [List.flatMap_cons, List.cons_append, groupFrom_run (hinner b), groupFrom, hop,
      ih c htail]
    rfl

theorem mem_group_tail {r : Row α} {x : Operator × α} (h : x ∈ (r.group level apply).tail) :
    level x.1 = false ∧ x.1 ∈ r.operators := by
  obtain ⟨a, tail⟩ := r
  simp only [group] at h
  induction tail generalizing a with
  | nil => cases h
  | cons y tail ih =>
    obtain ⟨op, b⟩ := y
    by_cases hop : level op
    · rw [groupFrom, if_pos hop] at h
      obtain ⟨hlevel, hmem⟩ := ih _ h
      exact ⟨hlevel, List.mem_cons_of_mem op hmem⟩
    · rw [groupFrom, if_neg hop] at h
      rcases List.mem_cons.1 h with rfl | h
      · exact ⟨Bool.not_eq_true _ ▸ hop, List.mem_cons_self⟩
      · obtain ⟨hlevel, hmem⟩ := ih _ h
        exact ⟨hlevel, List.mem_cons_of_mem op hmem⟩

theorem expand_expand {γ : Type} (f : β → Row γ) (g : α → Row β) (r : Row α) :
    (r.expand g).expand f = r.expand fun a => (g a).expand f := by
  obtain ⟨a, tail⟩ := r
  simp only [expand, List.flatMap_append, List.append_assoc, Row.mk.injEq, true_and,
    List.append_cancel_left_eq]
  induction tail with
  | nil => rfl
  | cons x tail ih => simp [ih]

theorem forall_mem_map {p : Operator → Prop} {f : α → β} {r : Row α}
    (h : ∀ x ∈ r.tail, p x.1) : ∀ x ∈ (r.map f).tail, p x.1 := by
  intro x hx
  obtain ⟨y, hy, rfl⟩ := List.mem_map.1 hx
  exact h y hy

theorem forall_mem_expand {p : Operator → Prop} {f : α → Row β} {r : Row α}
    (houter : ∀ x ∈ r.tail, p x.1) (hinner : ∀ a, ∀ x ∈ (f a).tail, p x.1) :
    ∀ x ∈ (r.expand f).tail, p x.1 := by
  intro x hx
  rcases List.mem_append.1 hx with hx | hx
  · exact hinner _ x hx
  · obtain ⟨y, hy, hx⟩ := List.mem_flatMap.1 hx
    rcases List.mem_cons.1 hx with rfl | hx
    · exact houter y hy
    · exact hinner _ x hx

theorem expand_single (f : α → β) (r : Row α) : (r.expand fun a => ⟨f a, []⟩) = r.map f := by
  obtain ⟨a, tail⟩ := r
  simp [expand, map, List.map_eq_flatMap]

theorem map_expand {γ : Type} (f : β → γ) (g : α → Row β) (r : Row α) :
    (r.expand g).map f = r.expand fun a => (g a).map f := by
  simp only [← expand_single, expand_expand]

end Row

end TeenyLang
