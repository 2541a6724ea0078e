import TeenyLang.Token

set_option autoImplicit false

/-!
# Derivation trees

    program    ::= {newline} {statement}
    statement  ::= "PRINT" (string | expression) nl
                 | "IF" comparison "THEN" nl {statement} "ENDIF" nl
                 | "WHILE" comparison "REPEAT" nl {statement} "ENDWHILE" nl
                 | "LABEL" ident nl
                 | "GOTO" ident nl
                 | "LET" ident "=" expression nl
                 | "INPUT" ident nl
    nl         ::= newline {newline}
    comparison ::= expression comparisonOp expression {comparisonOp expression}
    expression ::= term {("+" | "-") term}
    term       ::= unary {("*" | "/") unary}
    unary      ::= ["+" | "-"] primary
    primary    ::= number | ident

There is one type of trees for each symbol, with tokens at the leaves. A leaf carries the
proof that its token is of the kind that its place asks for, so every tree is a derivation and
`tokens` is the sequence that it derives.
-/
namespace TeenyLang.Grammar

abbrev Leaf (kinds : List Kind) := { t : Token // t.kind ∈ kinds }

def Leaf.only (t : Token) : Leaf [t.kind] :=
  ⟨t, List.mem_singleton_self t.kind⟩

abbrev tokenIn (file : String) (kind : Kind) (text : String) (line column : Int) : Token :=
  ⟨kind, text, ⟨file, line, column⟩⟩

abbrev wordIn (file : String) (word : Keyword) (line column : Int) : Leaf [.keyword word] :=
  .only (tokenIn file (.keyword word) word.spelling line column)

abbrev sumOperators : List Kind := [.operator .plus, .operator .minus]

abbrev productOperators : List Kind := [.operator .asterisk, .operator .slash]

abbrev comparisonOperators : List Kind :=
  [.operator .equal, .operator .notEqual, .operator .less, .operator .lessEqual,
    .operator .greater, .operator .greaterEqual]

inductive Primary where
  | number (token : Leaf [.number])
  | ident (token : Leaf [.identifier])

structure Unary where
  sign : Option (Leaf sumOperators)
  operand : Primary

structure Chain (operators : List Kind) (α : Type) where
  head : α
  tail : List (Leaf operators × α)

abbrev Term := Chain productOperators Unary

abbrev Expression := Chain sumOperators Term

abbrev Comparison := { c : Chain comparisonOperators Expression // c.tail ≠ [] }

structure Newlines where
  first : Leaf [.newline]
  more : List (Leaf [.newline])

abbrev newlineIn (file : String) (line column : Int) : Newlines :=
  ⟨.only (tokenIn file .newline "\n" line column), []⟩

inductive BlockForm where
  | ifThen
  | whileRepeat
deriving DecidableEq

namespace BlockForm

def opener : BlockForm → Keyword
  | ifThen => .IF
  | whileRepeat => .WHILE

def follower : BlockForm → Keyword
  | ifThen => .THEN
  | whileRepeat => .REPEAT

def closer : BlockForm → Keyword
  | ifThen => .ENDIF
  | whileRepeat => .ENDWHILE

end BlockForm

inductive Printed where
  | text (token : Leaf [.string])
  | value (expression : Expression)

inductive Statement where
  | print (word : Leaf [.keyword .PRINT]) (printed : Printed) (ending : Newlines)
  | label (word : Leaf [.keyword .LABEL]) (name : Leaf [.identifier]) (ending : Newlines)
  | goto (word : Leaf [.keyword .GOTO]) (name : Leaf [.identifier]) (ending : Newlines)
  | assign (word : Leaf [.keyword .LET]) (name : Leaf [.identifier])
      (equals : Leaf [.operator .assign]) (value : Expression) (ending : Newlines)
  | input (word : Leaf [.keyword .INPUT]) (name : Leaf [.identifier]) (ending : Newlines)
  | block (form : BlockForm) (word : Leaf [.keyword form.opener]) (condition : Comparison)
      (follower : Leaf [.keyword form.follower]) (gap : Newlines) (body : List Statement)
      (closer : Leaf [.keyword form.closer]) (ending : Newlines)

structure Program where
  leading : List (Leaf [.newline])
  statements : List Statement

/-! ## The derived tokens -/

def Primary.token : Primary → Token
  | number t => t.1
  | ident t => t.1

def Unary.tokens (u : Unary) : List Token :=
  (u.sign.map Subtype.val).toList ++ [u.operand.token]

def linkTokens {operators : List Kind} {α : Type} (tokens : α → List Token)
    (link : Leaf operators × α) : List Token :=
  link.1.1 :: tokens link.2

def Chain.tokens {operators : List Kind} {α : Type} (tokens : α → List Token)
    (c : Chain operators α) : List Token :=
  tokens c.head ++ c.tail.flatMap (linkTokens tokens)

def Term.tokens : Term → List Token :=
  Chain.tokens Unary.tokens

def Expression.tokens : Expression → List Token :=
  Chain.tokens Term.tokens

def Comparison.tokens (c : Comparison) : List Token :=
  Chain.tokens Expression.tokens c.1

def Newlines.tokens (n : Newlines) : List Token :=
  n.first.1 :: n.more.map Subtype.val

def Printed.tokens : Printed → List Token
  | text t => [t.1]
  | value e => Expression.tokens e

mutual

def Statement.tokens : Statement → List Token
  | .print word printed ending => word.1 :: (printed.tokens ++ ending.tokens)
  | .label word name ending => word.1 :: name.1 :: ending.tokens
  | .goto word name ending => word.1 :: name.1 :: ending.tokens
  | .assign word name equals value ending =>
    word.1 :: name.1 :: equals.1 :: (Expression.tokens value ++ ending.tokens)
  | .input word name ending => word.1 :: name.1 :: ending.tokens
  | .block _ word condition follower gap body closer ending =>
    word.1 :: (Comparison.tokens condition ++ follower.1 :: (gap.tokens ++
      (bodyTokens body ++ closer.1 :: ending.tokens)))

def bodyTokens : List Statement → List Token
  | [] => []
  | s :: rest => s.tokens ++ bodyTokens rest

end

def Program.tokens (P : Program) : List Token :=
  P.leading.map Subtype.val ++ bodyTokens P.statements

theorem bodyTokens_eq_flatMap (body : List Statement) :
    bodyTokens body = body.flatMap Statement.tokens := by
  induction body with
  | nil => rfl
  | cons s rest ih => rw [bodyTokens, ih, List.flatMap_cons]

/-- Induction on statements: what holds of all statements of a block holds of the block. -/
@[elab_as_elim]
theorem Statement.induction {motive : Statement → Prop}
    (print : ∀ word printed ending, motive (.print word printed ending))
    (label : ∀ word name ending, motive (.label word name ending))
    (goto : ∀ word name ending, motive (.goto word name ending))
    (assign : ∀ word name equals value ending, motive (.assign word name equals value ending))
    (input : ∀ word name ending, motive (.input word name ending))
    (block : ∀ form word condition follower gap body closer ending,
      (∀ s ∈ body, motive s) →
        motive (.block form word condition follower gap body closer ending)) :
    ∀ s, motive s
  | .print .. => print ..
  | .label .. => label ..
  | .goto .. => goto ..
  | .assign .. => assign ..
  | .input .. => input ..
  | .block _ _ _ _ _ body _ _ =>
    block _ _ _ _ _ _ _ _ fun s hs =>
      have := List.sizeOf_lt_of_mem hs
      Statement.induction print label goto assign input block s
termination_by s => sizeOf s
decreasing_by simp; omega

/-! ## The end of the input in no tree -/

theorem leaf_ne_endOfInput {kinds : List Kind} (t : Leaf kinds) (h : .endOfInput ∉ kinds) :
    t.1.kind ≠ .endOfInput := by
  intro hkind
  exact h (hkind ▸ t.2)

theorem chain_tokens_ne {operators : List Kind} {α : Type} {tokens : α → List Token}
    (hoperators : .endOfInput ∉ operators)
    (htokens : ∀ a, ∀ t ∈ tokens a, t.kind ≠ .endOfInput) (c : Chain operators α) :
    ∀ t ∈ c.tokens tokens, t.kind ≠ .endOfInput := by
  intro t ht
  rcases List.mem_append.1 ht with ht | ht
  · exact htokens c.head t ht
  · obtain ⟨link, _, ht⟩ := List.mem_flatMap.1 ht
    rcases List.mem_cons.1 ht with rfl | ht
    · exact leaf_ne_endOfInput link.1 hoperators
    · exact htokens link.2 t ht

theorem Unary.tokens_ne (u : Unary) : ∀ t ∈ u.tokens, t.kind ≠ .endOfInput := by
  obtain ⟨sign, operand⟩ := u
  intro t ht
  rcases List.mem_append.1 ht with ht | ht
  · cases sign with
    | none => simp at ht
    | some sign =>
      obtain rfl : t = sign.1 := by simpa using ht
      exact leaf_ne_endOfInput sign (by decide)
  · obtain rfl := List.mem_singleton.1 ht
    cases operand with
    | number t | ident t => exact leaf_ne_endOfInput t (by decide)

theorem Expression.tokens_ne (e : Expression) :
    ∀ t ∈ Expression.tokens e, t.kind ≠ .endOfInput :=
  chain_tokens_ne (by decide) (chain_tokens_ne (by decide) Unary.tokens_ne) e

theorem Comparison.tokens_ne (c : Comparison) :
    ∀ t ∈ Comparison.tokens c, t.kind ≠ .endOfInput :=
  chain_tokens_ne (by decide) Expression.tokens_ne c.1

theorem Newlines.tokens_ne (n : Newlines) : ∀ t ∈ n.tokens, t.kind ≠ .endOfInput := by
  intro t ht
  rcases List.mem_cons.1 ht with rfl | ht
  · exact leaf_ne_endOfInput n.first (by decide)
  · obtain ⟨leaf, _, rfl⟩ := List.mem_map.1 ht
    exact leaf_ne_endOfInput leaf (by decide)

theorem Printed.tokens_ne (x : Printed) : ∀ t ∈ x.tokens, t.kind ≠ .endOfInput := by
  cases x with
  | text t =>
    intro u hu
    obtain rfl := List.mem_singleton.1 hu
    exact leaf_ne_endOfInput t (by decide)
  | value e => exact Expression.tokens_ne e

theorem Statement.tokens_ne (s : Statement) : ∀ t ∈ s.tokens, t.kind ≠ .endOfInput := by
  induction s using Statement.induction with
  | print word printed ending =>
    simp only [Statement.tokens, List.forall_mem_cons, List.forall_mem_append]
    exact ⟨leaf_ne_endOfInput word (by decide), printed.tokens_ne, ending.tokens_ne⟩
  | label word name ending | goto word name ending | input word name ending =>
    simp only [Statement.tokens, List.forall_mem_cons]
    exact ⟨leaf_ne_endOfInput word (by decide), leaf_ne_endOfInput name (by decide),
      ending.tokens_ne⟩
  | assign word name equals value ending =>
    simp only [Statement.tokens, List.forall_mem_cons, List.forall_mem_append]
    exact ⟨leaf_ne_endOfInput word (by decide), leaf_ne_endOfInput name (by decide),
      leaf_ne_endOfInput equals (by decide), Expression.tokens_ne value, ending.tokens_ne⟩
  | block form word condition follower gap body closer ending ih =>
    have hbody : ∀ t ∈ bodyTokens body, t.kind ≠ .endOfInput := by
      rw [bodyTokens_eq_flatMap]
      intro t ht
      obtain ⟨s, hs, ht⟩ := List.mem_flatMap.1 ht
      exact ih s hs t ht
    simp only [Statement.tokens, List.forall_mem_cons, List.forall_mem_append]
    exact ⟨leaf_ne_endOfInput word (by simp), condition.tokens_ne,
      leaf_ne_endOfInput follower (by simp), gap.tokens_ne, hbody,
      leaf_ne_endOfInput closer (by simp), ending.tokens_ne⟩

theorem Program.tokens_ne (P : Program) : ∀ t ∈ P.tokens, t.kind ≠ .endOfInput := by
  rw [Program.tokens, bodyTokens_eq_flatMap]
  intro t ht
  rcases List.mem_append.1 ht with ht | ht
  · obtain ⟨leaf, _, rfl⟩ := List.mem_map.1 ht
    exact leaf_ne_endOfInput leaf (by decide)
  · obtain ⟨s, _, ht⟩ := List.mem_flatMap.1 ht
    exact s.tokens_ne t ht

end TeenyLang.Grammar
