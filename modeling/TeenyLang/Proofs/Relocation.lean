import TeenyLang.Proofs.Translation
import Mathlib.Data.List.Basic
import Mathlib.Data.List.Induction
import Mathlib.Data.List.Nodup

set_option autoImplicit false

/-!
# Derivation trees at other places

A tree with its tokens moved to other places derives the moved tokens, uses the same names and has
the same translation. Two programs one after the other are a program again: the newlines before the
second one end the last statement of the first one.
-/
namespace TeenyLang

def Token.moved (f : Location → Location) (t : Token) : Token :=
  { t with location := f t.location }

namespace Grammar

variable (f : Location → Location)

def Leaf.moved {kinds : List Kind} (t : Leaf kinds) : Leaf kinds :=
  ⟨t.1.moved f, t.2⟩

def Primary.moved : Primary → Primary
  | number t => .number (Leaf.moved f t)
  | ident t => .ident (Leaf.moved f t)

def Unary.moved (u : Unary) : Unary :=
  ⟨u.sign.map (Leaf.moved f), u.operand.moved f⟩

def Chain.moved {operators : List Kind} {α : Type} (moved : α → α) (c : Chain operators α) :
    Chain operators α :=
  ⟨moved c.head, c.tail.map fun link => (Leaf.moved f link.1, moved link.2)⟩

def Term.moved : Term → Term :=
  Chain.moved f (Unary.moved f)

def Expression.moved : Expression → Expression :=
  Chain.moved f (Term.moved f)

def Comparison.moved (c : Comparison) : Comparison :=
  ⟨Chain.moved f (Expression.moved f) c.1, by simp [Chain.moved, c.2]⟩

def Newlines.moved (n : Newlines) : Newlines :=
  ⟨Leaf.moved f n.first, n.more.map (Leaf.moved f)⟩

def Printed.moved : Printed → Printed
  | text t => .text (Leaf.moved f t)
  | value e => .value (Expression.moved f e)

mutual

def Statement.moved : Statement → Statement
  | .print word printed ending => .print (Leaf.moved f word) (printed.moved f) (ending.moved f)
  | .label word name ending => .label (Leaf.moved f word) (Leaf.moved f name) (ending.moved f)
  | .goto word name ending => .goto (Leaf.moved f word) (Leaf.moved f name) (ending.moved f)
  | .assign word name equals value ending =>
    .assign (Leaf.moved f word) (Leaf.moved f name) (Leaf.moved f equals)
      (Expression.moved f value) (ending.moved f)
  | .input word name ending => .input (Leaf.moved f word) (Leaf.moved f name) (ending.moved f)
  | .block form word condition follower gap body closer ending =>
    .block form (Leaf.moved f word) (Comparison.moved f condition) (Leaf.moved f follower)
      (gap.moved f) (bodyMoved body) (Leaf.moved f closer) (ending.moved f)

def bodyMoved : List Statement → List Statement
  | [] => []
  | s :: rest => s.moved :: bodyMoved rest

end

def Program.moved (P : Program) : Program :=
  ⟨P.leading.map (Leaf.moved f), bodyMoved f P.statements⟩

theorem bodyMoved_eq_map (body : List Statement) :
    bodyMoved f body = body.map (Statement.moved f) := by
  induction body with
  | nil => rfl
  | cons s rest ih => rw [bodyMoved, ih, List.map_cons]

/-! ## Tokens -/

theorem Primary.token_moved (x : Primary) : (x.moved f).token = x.token.moved f := by
  cases x <;> rfl

theorem Unary.tokens_moved (u : Unary) : (u.moved f).tokens = u.tokens.map (Token.moved f) := by
  obtain ⟨sign, operand⟩ := u
  cases sign with
  | none => simp [moved, tokens, Primary.token_moved]
  | some sign =>
    simp only [moved, tokens, Primary.token_moved, Option.map_some, List.map_append]
    rfl

theorem Chain.tokens_moved {operators : List Kind} {α : Type} {moved : α → α}
    {tokens : α → List Token} (h : ∀ a, tokens (moved a) = (tokens a).map (Token.moved f))
    (c : Chain operators α) :
    (c.moved f moved).tokens tokens = (c.tokens tokens).map (Token.moved f) := by
  simp only [Chain.moved, Chain.tokens, h, List.map_append, List.flatMap_map, List.map_flatMap]
  simp only [linkTokens, h, List.map_cons]
  rfl

theorem Expression.tokens_moved (e : Expression) :
    Expression.tokens (Expression.moved f e) = (Expression.tokens e).map (Token.moved f) :=
  Chain.tokens_moved f (Chain.tokens_moved f (Unary.tokens_moved f)) e

theorem Comparison.tokens_moved (c : Comparison) :
    Comparison.tokens (Comparison.moved f c) = (Comparison.tokens c).map (Token.moved f) :=
  Chain.tokens_moved f (Expression.tokens_moved f) c.1

theorem leaves_moved {kinds : List Kind} (ts : List (Leaf kinds)) :
    (ts.map (Leaf.moved f)).map Subtype.val = (ts.map Subtype.val).map (Token.moved f) := by
  rw [List.map_map, List.map_map]
  rfl

theorem Newlines.tokens_moved (n : Newlines) :
    (n.moved f).tokens = n.tokens.map (Token.moved f) :=
  congrArg (_ :: ·) (leaves_moved f n.more)

theorem Printed.tokens_moved (x : Printed) :
    (x.moved f).tokens = x.tokens.map (Token.moved f) := by
  cases x with
  | text t => rfl
  | value e => exact Expression.tokens_moved f e

theorem bodyTokens_moved {body : List Statement}
    (h : ∀ s ∈ body, (s.moved f).tokens = s.tokens.map (Token.moved f)) :
    bodyTokens (bodyMoved f body) = (bodyTokens body).map (Token.moved f) := by
  rw [bodyMoved_eq_map, bodyTokens_eq_flatMap, bodyTokens_eq_flatMap, List.flatMap_map,
    List.map_flatMap]
  exact List.flatMap_congr h

theorem Statement.tokens_moved (s : Statement) :
    (s.moved f).tokens = s.tokens.map (Token.moved f) := by
  induction s using Statement.induction with
  | print word printed ending =>
    simp only [moved, tokens, List.map_cons, List.map_append, printed.tokens_moved,
      ending.tokens_moved]
    rfl
  | label word name ending | goto word name ending | input word name ending =>
    simp only [moved, tokens, List.map_cons, ending.tokens_moved]
    rfl
  | assign word name equals value ending =>
    simp only [moved, tokens, List.map_cons, List.map_append, Expression.tokens_moved,
      ending.tokens_moved]
    rfl
  | block form word condition follower gap body closer ending ih =>
    simp only [moved, tokens, List.map_cons, List.map_append, Comparison.tokens_moved,
      gap.tokens_moved, bodyTokens_moved f ih, ending.tokens_moved]
    rfl

theorem Program.tokens_moved (P : Program) :
    (P.moved f).tokens = P.tokens.map (Token.moved f) := by
  rw [Program.tokens, Program.tokens, Program.moved, leaves_moved,
    bodyTokens_moved f fun s _ => s.tokens_moved f, List.map_append]

/-! ## Names -/

def Use.moved (u : Use) : Use :=
  { u with token := u.token.moved f }

theorem Unary.uses_moved (u : Unary) : (u.moved f).uses = u.uses.map (Use.moved f) := by
  obtain ⟨sign, operand⟩ := u
  cases operand <;> rfl

theorem Chain.uses_moved {operators : List Kind} {α : Type} {moved : α → α}
    {uses : α → List Use} (h : ∀ a, uses (moved a) = (uses a).map (Use.moved f))
    (c : Chain operators α) :
    (c.moved f moved).uses uses = (c.uses uses).map (Use.moved f) := by
  simp only [Chain.moved, Chain.uses, h, List.map_append, List.flatMap_map, List.map_flatMap]

theorem Expression.uses_moved (e : Expression) :
    Expression.uses (Expression.moved f e) = (Expression.uses e).map (Use.moved f) :=
  Chain.uses_moved f (Chain.uses_moved f (Unary.uses_moved f)) e

theorem Comparison.uses_moved (c : Comparison) :
    Comparison.uses (Comparison.moved f c) = (Comparison.uses c).map (Use.moved f) :=
  Chain.uses_moved f (Expression.uses_moved f) c.1

theorem Printed.uses_moved (x : Printed) : (x.moved f).uses = x.uses.map (Use.moved f) := by
  cases x with
  | text t => rfl
  | value e => exact Expression.uses_moved f e

theorem bodyUses_moved {body : List Statement}
    (h : ∀ s ∈ body, (s.moved f).uses = s.uses.map (Use.moved f)) :
    bodyUses (bodyMoved f body) = (bodyUses body).map (Use.moved f) := by
  rw [bodyMoved_eq_map, bodyUses_eq_flatMap, bodyUses_eq_flatMap, List.flatMap_map,
    List.map_flatMap]
  exact List.flatMap_congr h

theorem Statement.uses_moved (s : Statement) : (s.moved f).uses = s.uses.map (Use.moved f) := by
  induction s using Statement.induction with
  | print word printed ending =>
    rw [moved, uses, uses, printed.uses_moved]
  | label word name ending | goto word name ending | input word name ending =>
    rw [moved, uses, uses]
    rfl
  | assign word name equals value ending =>
    rw [moved, uses, uses, Expression.uses_moved]
    rfl
  | block form word condition follower gap body closer ending ih =>
    rw [moved, uses, uses, Comparison.uses_moved, bodyUses_moved f ih, List.map_append]

theorem Program.uses_moved (P : Program) : (P.moved f).uses = P.uses.map (Use.moved f) :=
  bodyUses_moved f fun s _ => s.uses_moved f

theorem named_moved (role : Role) (uses : List Use) :
    named role (uses.map (Use.moved f)) = named role uses := by
  rw [named, named, List.filter_map, List.map_map]
  rfl

theorem readsDeclared_moved (uses : List Use) :
    ReadsDeclared (uses.map (Use.moved f)) ↔ ReadsDeclared uses := by
  induction uses using List.reverseRecOn with
  | nil => rfl
  | append_singleton us u ih =>
    rw [List.map_append, List.map_singleton, readsDeclared_concat, readsDeclared_concat, ih,
      named_moved]
    rfl

/-! ## Translations -/

theorem Unary.code_moved (u : Unary) : (u.moved f).code = u.code := by
  obtain ⟨sign, operand⟩ := u
  cases sign <;> cases operand <;> rfl

theorem Chain.code_moved {operators : List Kind} {α : Type} {moved : α → α} {code : α → String}
    (h : ∀ a, code (moved a) = code a) (c : Chain operators α) :
    (c.moved f moved).code code = c.code code := by
  rw [Chain.code, Chain.code, Chain.moved, h, concatMap_map]
  refine congrArg (_ ++ ·) (concatMap_congr fun link _ => ?_)
  simp only [linkCode, h]
  rfl

theorem Expression.code_moved (e : Expression) :
    Expression.code (Expression.moved f e) = Expression.code e :=
  Chain.code_moved f (Chain.code_moved f (Unary.code_moved f)) e

theorem Comparison.code_moved (c : Comparison) :
    Comparison.code (Comparison.moved f c) = Comparison.code c :=
  Chain.code_moved f (Expression.code_moved f) c.1

theorem Printed.code_moved (precision : Int) (x : Printed) :
    (x.moved f).code precision = x.code precision := by
  cases x with
  | text t => rfl
  | value e => rw [moved, code, code, Expression.code_moved]

theorem bodyCode_moved {precision : Int} {body : List Statement}
    (h : ∀ s ∈ body, (s.moved f).code precision = s.code precision) :
    bodyCode precision (bodyMoved f body) = bodyCode precision body := by
  rw [bodyMoved_eq_map, bodyCode_eq_concatMap, bodyCode_eq_concatMap, concatMap_map]
  exact concatMap_congr h

theorem Statement.code_moved (precision : Int) (s : Statement) :
    (s.moved f).code precision = s.code precision := by
  induction s using Statement.induction with
  | print word printed ending => rw [moved, code, code, printed.code_moved]
  | label word name ending | goto word name ending | input word name ending =>
    rw [moved, code, code]
    rfl
  | assign word name equals value ending =>
    rw [moved, code, code, Expression.code_moved]
    rfl
  | block form word condition follower gap body closer ending ih =>
    rw [moved, code, code, Comparison.code_moved, bodyCode_moved f ih]

theorem Program.code_moved (precision : Int) (P : Program) :
    bodyCode precision (P.moved f).statements = bodyCode precision P.statements :=
  bodyCode_moved f fun s _ => s.code_moved f precision

/-! ## One program after another -/

def Newlines.append (n : Newlines) (more : List (Leaf [.newline])) : Newlines :=
  ⟨n.first, n.more ++ more⟩

def Statement.append (more : List (Leaf [.newline])) : Statement → Statement
  | .print word printed ending => .print word printed (ending.append more)
  | .label word name ending => .label word name (ending.append more)
  | .goto word name ending => .goto word name (ending.append more)
  | .assign word name equals value ending => .assign word name equals value (ending.append more)
  | .input word name ending => .input word name (ending.append more)
  | .block form word condition follower gap body closer ending =>
    .block form word condition follower gap body closer (ending.append more)

theorem Statement.tokens_append (more : List (Leaf [.newline])) (s : Statement) :
    (s.append more).tokens = s.tokens ++ more.map Subtype.val := by
  cases s <;> simp [append, tokens, Newlines.append, Newlines.tokens]

theorem Statement.uses_append (more : List (Leaf [.newline])) (s : Statement) :
    (s.append more).uses = s.uses := by
  cases s <;> simp only [append, uses]

theorem Statement.code_append (more : List (Leaf [.newline])) (precision : Int) (s : Statement) :
    (s.append more).code precision = s.code precision := by
  cases s <;> simp only [append, code]

/-- The tokens of two programs one after the other are those of a program. -/
theorem Program.exists_join (P Q : Program) :
    ∃ R : Program, R.tokens = P.tokens ++ Q.tokens ∧ R.uses = P.uses ++ Q.uses ∧
      ∀ precision, bodyCode precision R.statements =
        bodyCode precision P.statements ++ bodyCode precision Q.statements := by
  obtain ⟨leading, statements⟩ := P
  obtain ⟨leading', statements'⟩ := Q
  simp only [Program.tokens, Program.uses, bodyTokens_eq_flatMap, bodyUses_eq_flatMap,
    bodyCode_eq_concatMap]
  rcases List.eq_nil_or_concat statements with rfl | ⟨body, last, rfl⟩
  · exact ⟨⟨leading ++ leading', statements'⟩, by simp, by simp, fun precision => by
      simp [concatMap]⟩
  · refine ⟨⟨leading, body ++ last.append leading' :: statements'⟩, ?_, ?_, fun precision => ?_⟩
    · simp [Statement.tokens_append]
    · simp [Statement.uses_append]
    · simp [concatMap_append, concatMap, Statement.code_append, String.append_assoc]

theorem readsDeclared_append {us vs : List Use} (hus : ReadsDeclared us)
    (hvs : ReadsDeclared vs) : ReadsDeclared (us ++ vs) := by
  induction vs using List.reverseRecOn with
  | nil => rwa [List.append_nil]
  | append_singleton vs v ih =>
    obtain ⟨hold, hnew⟩ := (readsDeclared_concat vs v).1 hvs
    rw [← List.append_assoc, readsDeclared_concat, named_append]
    exact ⟨ih hold, fun hread => List.mem_append_right _ (hnew hread)⟩

/-- Two lists of names in order are in order one after the other exactly if they share no label. -/
theorem wellNamed_append {us vs : List Use} (hus : WellNamed us) (hvs : WellNamed vs) :
    WellNamed (us ++ vs) ↔ List.Disjoint (named .label us) (named .label vs) := by
  constructor
  · intro h
    have hnodup := h.labels
    rw [named_append] at hnodup
    exact List.disjoint_of_nodup_append hnodup
  · intro hdisjoint
    refine ⟨readsDeclared_append hus.reads hvs.reads, ?_, ?_⟩
    · rw [named_append]
      exact hus.labels.append hvs.labels hdisjoint
    · simp only [named_append, List.mem_append]
      exact fun name => Or.imp (hus.jumps name) (hvs.jumps name)

theorem wellNamed_moved {uses : List Use} (h : WellNamed uses) :
    WellNamed (uses.map (Use.moved f)) :=
  ⟨(readsDeclared_moved f uses).2 h.reads, by rw [named_moved]; exact h.labels, by
    rw [named_moved, named_moved]; exact h.jumps⟩

end Grammar

end TeenyLang
