import TeenyLang.Parser.Expression

set_option autoImplicit false

/-!
# Rules of statements

    statement ::= "PRINT" (string | expression) nl
                | "IF" comparison "THEN" nl {statement} "ENDIF" nl
                | "WHILE" comparison "REPEAT" nl {statement} "ENDWHILE" nl
                | "LABEL" identifier nl
                | "GOTO" identifier nl
                | "LET" identifier "=" expression nl
                | "INPUT" identifier nl
    nl        ::= newline {newline}

A statement without a block is read by one rule. A statement with a block is read in three
parts: `opening` reads up to the block and says what closes it, `closing` reads what stands
after it, and `nested` reads what lies between, with the blocks that are open kept in a list,
the innermost first. So blocks may be nested to any depth: no bound is set here on the calls that
may be open at a time, and a machine that sets one gives up on programs that are read here.
-/
namespace TeenyLang.Parser

variable {σ : Type} [TokenSupply σ]

def skipNewlines : Rule σ Unit :=
  whileCurrent (· = .newline) (discard advance) fun p p' here ran => by
    obtain ⟨token, q, ranAdvance, ran⟩ := bind_eq_ok ran
    cases ran
    exact advance_size_lt ranAdvance (by simp at here; simp [here])

/-- One newline at least, and all that follow it. -/
def newlines : Rule σ Unit := do
  note "NEWLINE"
  discard (expect .newline)
  skipNewlines

def declare (name : String) : Rule σ Unit := do
  let p ← get
  if p.variableNames.contains name then
    return
  note s!"Declaring variable '{name}'"
  modify fun p => { p with variableNames := p.variableNames ++ [name] }
  emitDeclaration s!"float {Target.name name};"

def declareLabel (token : Token) : Rule σ Unit := do
  let p ← get
  match p.labels.lookup token.text with
  | some first => failAt token (.duplicateLabel token.text (some first))
  | none => modify fun p => { p with labels := p.labels ++ [(token.text, token.location)] }

/-- Keeps the place of the first jump to a label. -/
def recordJump (token : Token) : Rule σ Unit :=
  modify fun p =>
    match p.jumps.lookup token.text with
    | some _ => p
    | none => { p with jumps := p.jumps ++ [(token.text, token.location)] }

def printStatement : Rule σ Unit := do
  note "STATEMENT-PRINT"
  discard advance
  let p ← get
  if p.current.kind = .string then
    let token ← advance
    emitLine ("printf(\"" ++ Target.string token.text ++ "\\n\");")
  else
    emit ("printf(\"%." ++ toString p.precision ++ "f\\n\", (float)(")
    expression
    emitLine "));"

def labelStatement : Rule σ Unit := do
  note "STATEMENT-LABEL"
  discard advance
  let token ← expect .identifier
  declareLabel token
  emitLine (Target.name token.text ++ ":;")

def gotoStatement : Rule σ Unit := do
  note "STATEMENT-GOTO"
  discard advance
  let token ← expect .identifier
  recordJump token
  emitLine ("goto " ++ Target.name token.text ++ ";")

def letStatement : Rule σ Unit := do
  note "STATEMENT-LET"
  discard advance
  let token ← expect .identifier
  declare token.text
  emit (Target.name token.text ++ " = ")
  discard (expect (.operator .assign))
  expression
  emitLine ";"

/-- Input that is no number stores 0 and drops the offending word. -/
def inputStatement : Rule σ Unit := do
  note "STATEMENT-INPUT"
  discard advance
  let token ← expect .identifier
  declare token.text
  let target := Target.name token.text
  emitLine ("if (0 == scanf(\"%f\", &" ++ target ++ ")) \x7b")
  emitLine (target ++ " = 0;")
  emitLine "scanf(\"%*s\");"
  emitLine "\x7d"

def blockHead (title code : String) (follower : Keyword) : Rule σ Unit := do
  note title
  discard advance
  emit code
  comparison
  discard (expect (.keyword follower))
  newlines
  emitLine ") \x7b"

/-- Reads a statement without a block, or one with a block up to the block. In the second
case the result is the kind of token that closes the block. -/
def opening : Rule σ (Option Kind) := do
  let p ← get
  match p.current.kind with
  | .keyword .PRINT => printStatement; newlines; return none
  | .keyword .LABEL => labelStatement; newlines; return none
  | .keyword .GOTO => gotoStatement; newlines; return none
  | .keyword .LET => letStatement; newlines; return none
  | .keyword .INPUT => inputStatement; newlines; return none
  | .keyword .IF => blockHead "STATEMENT-IF" "if (" .THEN; return some (.keyword .ENDIF)
  | .keyword .WHILE =>
    blockHead "STATEMENT-WHILE" "while (" .REPEAT; return some (.keyword .ENDWHILE)
  | _ => failAt p.current (.invalidStatement p.current.description)

def closing (terminator : Kind) : Rule σ Unit := do
  discard (expect terminator)
  emitLine "\x7d"
  newlines

def requireMore (terminator : Kind) : Rule σ Unit := do
  let p ← get
  if p.current.kind = .endOfInput then
    throw
      ⟨.unexpectedToken p.current.description (some terminator.description),
        some p.current.location, none⟩

/-- Inside a block that `terminator` closes, with the blocks `outer` around it: closes it or
begins its next statement. The result lists the blocks that are open then. -/
def nestedStep (terminator : Kind) (outer : List Kind) : Rule σ (List Kind) := do
  let p ← get
  if p.current.kind = terminator then
    closing terminator
    return outer
  else
    requireMore terminator
    let opened ← opening
    return opened.toList ++ terminator :: outer

theorem consumes_newlines : Consumes (newlines : Rule σ Unit) :=
  .bind_right (shrinks_note _) fun _ =>
    .bind_left (.bind_left (consumes_expect (by simp)) fun _ => .pure _) fun _ =>
      shrinks_whileCurrent _ _ _

theorem shrinks_discard {α : Type} {rule : Rule σ α} (h : Shrinks rule) :
    Shrinks (discard rule) :=
  .bind h fun _ => .pure _

theorem shrinks_declare (name : String) : Shrinks (declare name : Rule σ Unit) := by
  refine .bind .get fun p => ?_
  split
  · exact .pure _
  · exact .bind (shrinks_note _) fun _ => .bind (.modify fun _ => rfl) fun _ =>
      shrinks_emitDeclaration _

theorem shrinks_declareLabel (token : Token) : Shrinks (declareLabel token : Rule σ Unit) := by
  refine .bind .get fun p => ?_
  split
  · exact (consumes_failAt _ _).shrinks
  · exact .modify fun _ => rfl

theorem shrinks_recordJump (token : Token) : Shrinks (recordJump token : Rule σ Unit) := by
  refine .modify fun p => ?_
  split <;> rfl

theorem shrinks_printStatement : Shrinks (printStatement : Rule σ Unit) := by
  refine .bind (shrinks_note _) fun _ => .bind (shrinks_discard shrinks_advance) fun _ =>
    .bind .get fun p => ?_
  split
  · exact .bind shrinks_advance fun _ => shrinks_emitLine _
  · exact .bind (shrinks_emit _) fun _ => .bind consumes_expression.shrinks fun _ =>
      shrinks_emitLine _

/-- A word and a name, with what is done at the name. -/
theorem shrinks_naming (title : String) {action : Token → Rule σ Unit}
    (h : ∀ token, Shrinks (action token)) :
    Shrinks (do note title; discard advance; let token ← expect .identifier; action token) :=
  .bind (shrinks_note _) fun _ => .bind (shrinks_discard shrinks_advance) fun _ =>
    .bind (shrinks_expect _) h

theorem shrinks_labelStatement : Shrinks (labelStatement : Rule σ Unit) :=
  shrinks_naming _ fun _ => .bind (shrinks_declareLabel _) fun _ => shrinks_emitLine _

theorem shrinks_gotoStatement : Shrinks (gotoStatement : Rule σ Unit) :=
  shrinks_naming _ fun _ => .bind (shrinks_recordJump _) fun _ => shrinks_emitLine _

theorem shrinks_letStatement : Shrinks (letStatement : Rule σ Unit) :=
  shrinks_naming _ fun _ => .bind (shrinks_declare _) fun _ => .bind (shrinks_emit _) fun _ =>
    .bind (shrinks_discard (shrinks_expect _)) fun _ =>
      .bind consumes_expression.shrinks fun _ => shrinks_emitLine _

theorem shrinks_inputStatement : Shrinks (inputStatement : Rule σ Unit) :=
  shrinks_naming _ fun _ => .bind (shrinks_declare _) fun _ =>
    .bind (shrinks_emitLine _) fun _ => .bind (shrinks_emitLine _) fun _ =>
      .bind (shrinks_emitLine _) fun _ => shrinks_emitLine _

theorem consumes_blockHead (title code : String) (follower : Keyword) :
    Consumes (blockHead title code follower : Rule σ Unit) :=
  .bind_right (shrinks_note _) fun _ => .bind_right (shrinks_discard shrinks_advance) fun _ =>
    .bind_right (shrinks_emit _) fun _ => .bind_left consumes_comparison fun _ =>
      .bind (shrinks_discard (shrinks_expect _)) fun _ =>
        .bind consumes_newlines.shrinks fun _ => shrinks_emitLine _

theorem consumes_opening : Consumes (opening : Rule σ (Option Kind)) := by
  have simple {rule : Rule σ Unit} (h : Shrinks rule) :
      Consumes (do rule; newlines; return none : Rule σ (Option Kind)) :=
    .bind_right h fun _ => .bind_left consumes_newlines fun _ => .pure _
  refine .bind_right .get fun p => ?_
  split
  · exact simple shrinks_printStatement
  · exact simple shrinks_labelStatement
  · exact simple shrinks_gotoStatement
  · exact simple shrinks_letStatement
  · exact simple shrinks_inputStatement
  · exact .bind_left (consumes_blockHead _ _ _) fun _ => .pure _
  · exact .bind_left (consumes_blockHead _ _ _) fun _ => .pure _
  · exact consumes_failAt _ _

theorem consumes_closing (terminator : Kind) : Consumes (closing terminator : Rule σ Unit) :=
  .bind_right (shrinks_discard (shrinks_expect _)) fun _ =>
    .bind_right (shrinks_emitLine _) fun _ => consumes_newlines

theorem shrinks_requireMore (terminator : Kind) :
    Shrinks (requireMore terminator : Rule σ Unit) := by
  refine .bind .get fun p => ?_
  split
  · exact (Consumes.throw _).shrinks
  · exact .pure _

theorem consumes_nestedStep (terminator : Kind) (outer : List Kind) :
    Consumes (nestedStep terminator outer : Rule σ (List Kind)) := by
  refine .bind_right .get fun p => ?_
  split
  · exact .bind_left (consumes_closing _) fun _ => .pure _
  · exact .bind_right (shrinks_requireMore _) fun _ =>
      .bind_left consumes_opening fun _ => .pure _

def nested (blocks : List Kind) : Rule σ Unit := fun p =>
  match blocks with
  | [] => .ok () p
  | terminator :: outer =>
    match _ran : nestedStep terminator outer p with
    | .ok blocks p' => nested blocks p'
    | .error diagnostic p' => .error diagnostic p'
termination_by p => p.size
decreasing_by exact consumes_nestedStep _ _ _ _ _ _ran

def statement : Rule σ Unit := do
  let opened ← opening
  nested opened.toList

theorem shrinks_nested (blocks : List Kind) : Shrinks (nested blocks : Rule σ Unit) := by
  intro p
  induction p using WellFounded.induction (measure fun q : Parser σ => q.size).wf
    generalizing blocks with
  | _ p ih =>
    intro a p' ran
    rw [nested.eq_def] at ran
    split at ran
    · cases ran
      exact Nat.le_refl _
    · next terminator outer =>
      split at ran
      · next blocks q ranStep =>
        have smaller := consumes_nestedStep terminator outer p blocks q ranStep
        exact Nat.le_trans (ih q smaller blocks a p' ran) (Nat.le_of_lt smaller)
      · cases ran

theorem consumes_statement : Consumes (statement : Rule σ Unit) :=
  .bind_left consumes_opening fun _ => shrinks_nested _

/-- Reads statements up to a token of the kind `terminator`, which must come before the end
of the input. -/
def block (terminator : Kind) : Rule σ Unit :=
  whileCurrent (· ≠ terminator) (do requireMore terminator; statement) fun p p' _ ran =>
    Consumes.bind_right (shrinks_requireMore terminator) (fun _ => consumes_statement)
      p () p' ran

end TeenyLang.Parser
