import TeenyLang.Proofs.Grammar

set_option autoImplicit false

/-!
# Names in a program

The places of a derivation tree at which a name stands, in the order of the tokens, and the
three rules on them: a variable is read only after an assignment or an input has named it, no
label is declared twice, and every jump goes to a label. The name that a LET assigns stands
before its right-hand side, so there it may be read already.
-/
namespace TeenyLang.Grammar

/-- What a name is there for. A `target` is the variable that a LET or an INPUT names. -/
inductive Role where
  | target
  | read
  | label
  | jump
deriving DecidableEq

structure Use where
  role : Role
  token : Token

def Use.name (u : Use) : String :=
  u.token.text

def Primary.uses : Primary → List Use
  | number _ => []
  | ident t => [⟨.read, t.1⟩]

def Unary.uses (u : Unary) : List Use :=
  u.operand.uses

def Chain.uses {operators : List Kind} {α : Type} (uses : α → List Use)
    (c : Chain operators α) : List Use :=
  uses c.head ++ c.tail.flatMap fun link => uses link.2

def Term.uses : Term → List Use :=
  Chain.uses Unary.uses

def Expression.uses : Expression → List Use :=
  Chain.uses Term.uses

def Comparison.uses (c : Comparison) : List Use :=
  Chain.uses Expression.uses c.1

def Printed.uses : Printed → List Use
  | text _ => []
  | value e => Expression.uses e

mutual

def Statement.uses : Statement → List Use
  | .print _ printed _ => printed.uses
  | .label _ name _ => [⟨.label, name.1⟩]
  | .goto _ name _ => [⟨.jump, name.1⟩]
  | .assign _ name _ value _ => ⟨.target, name.1⟩ :: Expression.uses value
  | .input _ name _ => [⟨.target, name.1⟩]
  | .block _ _ condition _ _ body _ _ => Comparison.uses condition ++ bodyUses body

def bodyUses : List Statement → List Use
  | [] => []
  | s :: rest => s.uses ++ bodyUses rest

end

def Program.uses (P : Program) : List Use :=
  bodyUses P.statements

theorem bodyUses_eq_flatMap (body : List Statement) :
    bodyUses body = body.flatMap Statement.uses := by
  induction body with
  | nil => rfl
  | cons s rest ih => rw [bodyUses, ih, List.flatMap_cons]

def named (role : Role) (uses : List Use) : List String :=
  (uses.filter fun u => u.role = role).map Use.name

@[simp] theorem named_append (role : Role) (us vs : List Use) :
    named role (us ++ vs) = named role us ++ named role vs := by
  simp [named]

theorem named_singleton (role : Role) (u : Use) :
    named role [u] = if u.role = role then [u.name] else [] := by
  by_cases h : u.role = role <;> simp [named, h]

/-- Every name that is read is a target before. -/
def ReadsDeclared (uses : List Use) : Prop :=
  ∀ before u after, uses = before ++ u :: after → u.role = .read →
    u.name ∈ named .target before

structure WellNamed (uses : List Use) : Prop where
  reads : ReadsDeclared uses
  labels : (named .label uses).Nodup
  jumps : ∀ name ∈ named .jump uses, name ∈ named .label uses

theorem readsDeclared_nil : ReadsDeclared [] := by
  intro before u after h
  simp at h

theorem readsDeclared_concat (us : List Use) (u : Use) :
    ReadsDeclared (us ++ [u]) ↔
      ReadsDeclared us ∧ (u.role = .read → u.name ∈ named .target us) := by
  constructor
  · intro h
    refine ⟨?_, h us u [] rfl⟩
    intro before v after hsplit
    exact h before v (after ++ [u]) (by simp [hsplit])
  · rintro ⟨hold, hnew⟩ before v after hsplit
    -- the read in question is the last use or stands before it
    rcases List.eq_nil_or_concat after with rfl | ⟨after, w, rfl⟩
    · obtain ⟨rfl, hv⟩ := List.append_inj' hsplit rfl
      cases hv
      exact hnew
    · have hinit : us ++ [u] = (before ++ v :: after) ++ [w] := by simp [hsplit]
      exact hold before v after (List.append_inj' hinit rfl).1

theorem readsDeclared_iff_forall_fin (uses : List Use) :
    ReadsDeclared uses ↔
      ∀ i : Fin uses.length, (uses.get i).role = .read →
        (uses.get i).name ∈ named .target (uses.take i) := by
  constructor
  · intro h i
    refine h (uses.take i) (uses.get i) (uses.drop (i + 1)) ?_
    rw [List.get_eq_getElem, List.getElem_cons_drop, List.take_append_drop]
  · rintro h before u after rfl
    have hlength : before.length < (before ++ u :: after).length := by simp
    have hu := h ⟨before.length, hlength⟩
    simpa using hu

instance (uses : List Use) : Decidable (ReadsDeclared uses) :=
  decidable_of_iff' _ (readsDeclared_iff_forall_fin uses)

theorem wellNamed_iff (uses : List Use) :
    WellNamed uses ↔ ReadsDeclared uses ∧ (named .label uses).Nodup ∧
      ∀ name ∈ named .jump uses, name ∈ named .label uses :=
  ⟨fun h => ⟨h.reads, h.labels, h.jumps⟩, fun h => ⟨h.1, h.2.1, h.2.2⟩⟩

instance (uses : List Use) : Decidable (WellNamed uses) :=
  decidable_of_iff' _ (wellNamed_iff uses)

end TeenyLang.Grammar
