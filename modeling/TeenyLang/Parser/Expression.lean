import TeenyLang.Parser.Progress

set_option autoImplicit false

/-!
# Rules of expressions

    comparison ::= expression comparisonOp expression {comparisonOp expression}
    expression ::= term {("+" | "-") term}
    term       ::= unary {("*" | "/") unary}
    unary      ::= ["+" | "-"] primary
    primary    ::= number | identifier

A binary operator is written with a space on each side, so that a sign after it cannot join
it. Each rule comes with the fact that it consumes.
-/
namespace TeenyLang.Parser

variable {σ : Type} [TokenSupply σ]

/-- Writes a number or a variable, which must be declared. -/
def operand (token : Token) : Rule σ Unit :=
  match token.kind with
  | .number => emit (Target.number token.text)
  | .identifier => do
    let p ← get
    if p.variableNames.contains token.text then emit (Target.name token.text)
    else
      failAt token
        (.undeclaredVariable token.text (Text.closeMatches token.text p.sortedVariables))
  | _ => failAt token (.unexpectedToken token.description (some "a number or variable"))

def primary : Rule σ Unit := do
  let p ← get
  note s!"PRIMARY ({p.current.text})"
  operand p.current
  discard advance

def isSign (kind : Kind) : Bool :=
  kind = .operator .plus || kind = .operator .minus

def isFactorOperator (kind : Kind) : Bool :=
  kind = .operator .asterisk || kind = .operator .slash

def unary : Rule σ Unit := do
  note "UNARY"
  let p ← get
  if isSign p.current.kind then
    let sign ← advance
    emit sign.text
  primary

def operatorThen (operand : Rule σ Unit) : Rule σ Unit := do
  let op ← advance
  emit s!" {op.text} "
  operand

/-- The rest of a chain of operands: an operator that passes the test and an operand, as
often as there is one. -/
def operatorTail (test : Kind → Bool) (operand : Rule σ Unit) (consumes : Consumes operand) :
    Rule σ Unit :=
  whileCurrent test (operatorThen operand) fun p p' _ ran =>
    Consumes.bind_right shrinks_advance (fun _ =>
      Consumes.bind_right (shrinks_emit _) fun _ => consumes) p () p' ran

theorem shrinks_operatorTail (test : Kind → Bool) (operand : Rule σ Unit)
    (consumes : Consumes operand) : Shrinks (operatorTail test operand consumes) :=
  shrinks_whileCurrent _ _ _

theorem operand_eq_ok {token : Token} {p p' : Parser σ} {a : Unit}
    (ran : operand token p = .ok a p') :
    p'.size = p.size ∧ p'.current = p.current ∧ token.kind ≠ .endOfInput := by
  unfold operand at ran
  cases kind : token.kind <;> rw [kind] at ran
  case number =>
    cases ran
    exact ⟨rfl, rfl, by simp⟩
  case identifier =>
    obtain ⟨q, q', got, ran⟩ := bind_eq_ok ran
    cases got
    split at ran
    · cases ran
      exact ⟨rfl, rfl, by simp⟩
    · cases ran
  all_goals cases ran

theorem consumes_primary : Consumes (primary : Rule σ Unit) := by
  intro p a p' ran
  obtain ⟨q, _, got, ran⟩ := bind_eq_ok ran
  cases got
  obtain ⟨_, noted, ranNote, ran⟩ := bind_eq_ok ran
  cases ranNote
  obtain ⟨_, written, ranOperand, ran⟩ := bind_eq_ok ran
  obtain ⟨sameSize, sameToken, more⟩ := operand_eq_ok ranOperand
  obtain ⟨token, moved, ranAdvance, ran⟩ := bind_eq_ok ran
  cases ran
  have := advance_size_lt ranAdvance (by rw [sameToken]; exact more)
  rw [sameSize] at this
  exact this

theorem consumes_unary : Consumes (unary : Rule σ Unit) := by
  refine .bind_right (shrinks_note _) fun _ => .bind_right .get fun p => ?_
  split
  · exact .bind_right shrinks_advance fun _ => .bind_right (shrinks_emit _) fun _ =>
      consumes_primary
  · exact consumes_primary

def term : Rule σ Unit := do
  note "TERM"
  unary
  operatorTail isFactorOperator unary consumes_unary

theorem consumes_term : Consumes (term : Rule σ Unit) :=
  .bind_right (shrinks_note _) fun _ => .bind_left consumes_unary fun _ =>
    shrinks_operatorTail _ _ _

def expression : Rule σ Unit := do
  note "EXPRESSION"
  term
  operatorTail isSign term consumes_term

theorem consumes_expression : Consumes (expression : Rule σ Unit) :=
  .bind_right (shrinks_note _) fun _ => .bind_left consumes_term fun _ =>
    shrinks_operatorTail _ _ _

def comparison : Rule σ Unit := do
  note "COMPARISON"
  expression
  let p ← get
  if p.current.kind.isComparison then
    operatorTail Kind.isComparison expression consumes_expression
  else
    failAt p.current (.missingComparison p.current.description)

theorem consumes_comparison : Consumes (comparison : Rule σ Unit) := by
  refine .bind_right (shrinks_note _) fun _ => .bind_left consumes_expression fun _ =>
    .bind .get fun p => ?_
  split
  · exact shrinks_operatorTail _ _ _
  · exact (consumes_failAt _ _).shrinks

end TeenyLang.Parser
