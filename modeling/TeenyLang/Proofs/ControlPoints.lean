import TeenyLang.Parser.Call
import TeenyLang.Proofs.Descent
import Mathlib.Logic.Relation

set_option autoImplicit false

/-!
# Where the rules look at a token

The rules taken apart into single steps. What is still to be done is an agenda: an `Act` does
something without a look at the current token, and at a `Spot` the rules look at it and put before
the agenda what they then plan to do. Step by step this comes to what the rules come to
(`performs_program`), so the spots are all the places at which a program meets its tokens.
-/
namespace TeenyLang.Parser

/-- What the rules do without a look at the current token. -/
inductive Act where
  | advance
  | note (message : String)
  | emit (text : String)
  | emitLine (text : String)
  | emitDeclaration (text : String)
  | declare (name : String)
  | declareLabel (token : Token)
  | recordJump (token : Token)
  | failAt (token : Token) (cause : Cause)
  | throw (diagnostic : Diagnostic)
  | checkLabels

inductive Naming where
  | label | goto | assign | input

inductive Precedence where
  | products | sums | comparisons

/-- A place in the rules from which the current token is looked at. -/
inductive Spot where
  /-- The test of the loop over the newlines before the first statement. -/
  | leading
  /-- The test of the loop over further newlines after a newline. -/
  | newlines
  /-- The test of the loop over the statements up to a token of the kind `terminator`, which is
  the end of the input for a program. -/
  | block (terminator : Kind)
  | statement
  | expect (kind : Kind)
  | name (naming : Naming)
  | printed
  | sign
  | operand
  | operators (level : Precedence)
  | comparison

inductive Item where
  | act (act : Act)
  | look (spot : Spot)

/-! ## The plans -/

def newlineItems : List Item :=
  [.act (.note "NEWLINE"), .look (.expect .newline), .look .newlines]

def unaryItems : List Item :=
  [.act (.note "UNARY"), .look .sign, .look .operand]

def termItems : List Item :=
  .act (.note "TERM") :: (unaryItems ++ [.look (.operators .products)])

def expressionItems : List Item :=
  .act (.note "EXPRESSION") :: (termItems ++ [.look (.operators .sums)])

def comparisonItems : List Item :=
  .act (.note "COMPARISON") :: (expressionItems ++ [.look .comparison])

def Precedence.test : Precedence → Kind → Bool
  | products => isFactorOperator
  | sums => isSign
  | comparisons => Kind.isComparison

def Precedence.operandItems : Precedence → List Item
  | products => unaryItems
  | sums => termItems
  | comparisons => expressionItems

def Naming.items (token : Token) : Naming → List Item
  | label => [.act (.declareLabel token), .act (.emitLine (Target.name token.text ++ ":;"))]
  | goto =>
    [.act (.recordJump token), .act (.emitLine ("goto " ++ Target.name token.text ++ ";"))]
  | assign =>
    .act (.declare token.text) :: .act (.emit (Target.name token.text ++ " = ")) ::
      .look (.expect (.operator .assign)) :: (expressionItems ++ [.act (.emitLine ";")])
  | input =>
    let target := Target.name token.text
    [.act (.declare token.text),
      .act (.emitLine ("if (0 == scanf(\"%f\", &" ++ target ++ ")) \x7b")),
      .act (.emitLine (target ++ " = 0;")), .act (.emitLine "scanf(\"%*s\");"),
      .act (.emitLine "\x7d")]

def namingItems (title : String) (naming : Naming) : List Item :=
  .act (.note title) :: .act .advance :: .look (.name naming) :: newlineItems

def headItems (title code : String) (follower : Keyword) : List Item :=
  .act (.note title) :: .act .advance :: .act (.emit code) :: (comparisonItems ++
    .look (.expect (.keyword follower)) :: (newlineItems ++ [.act (.emitLine ") \x7b")]))

def openingItems (token : Token) : List Item :=
  match token.kind with
  | .keyword .PRINT =>
    .act (.note "STATEMENT-PRINT") :: .act .advance :: .look .printed :: newlineItems
  | .keyword .LABEL => namingItems "STATEMENT-LABEL" .label
  | .keyword .GOTO => namingItems "STATEMENT-GOTO" .goto
  | .keyword .LET => namingItems "STATEMENT-LET" .assign
  | .keyword .INPUT => namingItems "STATEMENT-INPUT" .input
  | .keyword .IF => headItems "STATEMENT-IF" "if (" .THEN
  | .keyword .WHILE => headItems "STATEMENT-WHILE" "while (" .REPEAT
  | _ => [.act (.failAt token (.invalidStatement token.description))]

def blockEnd : Kind → Option Kind
  | .keyword .IF => some (.keyword .ENDIF)
  | .keyword .WHILE => some (.keyword .ENDWHILE)
  | _ => none

def closingItems (terminator : Kind) : List Item :=
  .look (.expect terminator) :: .act (.emitLine "\x7d") :: newlineItems

def programItems : List Item :=
  [.act (.note "PROGRAM"), .act (.emitDeclaration "#include <stdio.h>"),
    .act (.emitDeclaration "int main(void) \x7b"), .look .leading, .look (.block .endOfInput),
    .act .checkLabels, .act (.emitLine "return 0;"), .act (.emitLine "\x7d")]

variable {σ α β : Type}

/-- What the rules plan to do when they look at the current token of `p` from a spot. -/
def Spot.plan (p : Parser σ) : Spot → List Item
  | leading => if p.current.kind = .newline then [.act .advance, .look leading] else []
  | newlines => if p.current.kind = .newline then [.act .advance, .look newlines] else []
  | block terminator =>
    if p.current.kind = terminator then []
    else if p.current.kind = .endOfInput then
      [.act (.throw ⟨.unexpectedToken p.current.description (some terminator.description),
        some p.current.location, none⟩)]
    else [.look statement, .look (block terminator)]
  | statement =>
    openingItems p.current ++ match blockEnd p.current.kind with
      | some terminator => .look (block terminator) :: closingItems terminator
      | none => []
  | expect kind =>
    if p.current.kind = kind then [.act .advance]
    else
      [.act (.failAt p.current
        (.unexpectedToken p.current.description (some kind.description)))]
  | name naming =>
    if p.current.kind = .identifier then .act .advance :: naming.items p.current
    else
      [.act (.failAt p.current
        (.unexpectedToken p.current.description (some Kind.identifier.description)))]
  | printed =>
    if p.current.kind = .string then
      [.act .advance,
        .act (.emitLine ("printf(\"" ++ Target.string p.current.text ++ "\\n\");"))]
    else
      .act (.emit ("printf(\"%." ++ toString p.precision ++ "f\\n\", (float)(")) ::
        (expressionItems ++ [.act (.emitLine "));")])
  | sign => if isSign p.current.kind then [.act .advance, .act (.emit p.current.text)] else []
  | operand =>
    .act (.note s!"PRIMARY ({p.current.text})") :: match p.current.kind with
      | .number => [.act (.emit (Target.number p.current.text)), .act .advance]
      | .identifier =>
        if p.variableNames.contains p.current.text then
          [.act (.emit (Target.name p.current.text)), .act .advance]
        else
          [.act (.failAt p.current (.undeclaredVariable p.current.text
            (Text.closeMatches p.current.text p.sortedVariables)))]
      | _ =>
        [.act (.failAt p.current
          (.unexpectedToken p.current.description (some "a number or variable")))]
  | operators level =>
    if level.test p.current.kind then
      .act .advance :: .act (.emit s!" {p.current.text} ") ::
        (level.operandItems ++ [.look (operators level)])
    else []
  | comparison =>
    if p.current.kind.isComparison then [.look (operators .comparisons)]
    else [.act (.failAt p.current (.missingComparison p.current.description))]

variable [TokenSupply σ]

def Act.run : Act → Rule σ Unit
  | advance => discard Parser.advance
  | note message => Parser.note message
  | emit text => Parser.emit text
  | emitLine text => Parser.emitLine text
  | emitDeclaration text => Parser.emitDeclaration text
  | declare name => Parser.declare name
  | declareLabel token => Parser.declareLabel token
  | recordJump token => Parser.recordJump token
  | failAt token cause => Parser.failAt token cause
  | throw diagnostic => MonadExcept.throw diagnostic
  | checkLabels => Parser.checkLabels

structure Config (σ : Type) where
  agenda : List Item
  parser : Parser σ

/-- The next step, unless everything is done or the next act fails. -/
def Config.next : Config σ → Option (Config σ)
  | ⟨[], _⟩ => none
  | ⟨.act act :: agenda, p⟩ =>
    match (act.run : Rule σ Unit) p with
    | .ok _ q => some ⟨agenda, q⟩
    | .error _ _ => none
  | ⟨.look spot :: agenda, p⟩ => some ⟨spot.plan p ++ agenda, p⟩

abbrev Leads : Config σ → Config σ → Prop :=
  Relation.ReflTransGen fun c c' => c.next = some c'

/-- The items do from `p` what a rule has come to: they are done with the same parser in the end, or
an act among them fails with the same diagnostic. -/
def Performs (items : List Item) (p : Parser σ) :
    EStateM.Result Diagnostic (Parser σ) α → Prop
  | .ok _ q => ∀ agenda, Leads ⟨items ++ agenda, p⟩ ⟨agenda, q⟩
  | .error d q => ∀ agenda, ∃ (act : Act) (left : List Item) (r : Parser σ),
      Leads ⟨items ++ agenda, p⟩ ⟨.act act :: left, r⟩ ∧ act.run r = .error d q

/-! ## The steps come to what the rules come to -/

theorem leads_look (spot : Spot) (p : Parser σ) (agenda : List Item) :
    Leads ⟨.look spot :: agenda, p⟩ ⟨spot.plan p ++ agenda, p⟩ :=
  .single rfl

theorem leads_act {act : Act} {p q : Parser σ} (h : act.run p = .ok () q) (agenda : List Item) :
    Leads ⟨.act act :: agenda, p⟩ ⟨agenda, q⟩ :=
  .single (by simp only [Config.next, h])

namespace Performs

variable {xs ys items : List Item} {p q : Parser σ}

theorem of_leads (h : ∀ agenda, Leads ⟨xs ++ agenda, p⟩ ⟨ys ++ agenda, q⟩)
    {result : EStateM.Result Diagnostic (Parser σ) α} (rest : Performs ys q result) :
    Performs xs p result := by
  cases result with
  | ok a r => exact fun agenda => (h agenda).trans (rest agenda)
  | error d r =>
    intro agenda
    obtain ⟨act, left, u, hleads, hfails⟩ := rest agenda
    exact ⟨act, left, u, (h agenda).trans hleads, hfails⟩

theorem nil (a : α) (p : Parser σ) : Performs [] p (.ok a p) :=
  fun _ => .refl

/-- One rule and then another, with the items of the first before those of the second. -/
theorem bind {rule : Rule σ α} {next : α → Rule σ β} (first : Performs xs p (rule p))
    (second : ∀ a q, rule p = .ok a q → Performs ys q (next a q)) :
    Performs (xs ++ ys) p ((rule >>= next) p) := by
  cases hrun : rule p with
  | ok a q =>
    rw [hrun] at first
    rw [bind_of_ok hrun]
    refine of_leads (fun agenda => ?_) (second a q hrun)
    rw [List.append_assoc]
    exact first (ys ++ agenda)
  | error d q =>
    rw [hrun] at first
    rw [bind_of_error hrun]
    intro agenda
    rw [List.append_assoc]
    exact first (ys ++ agenda)

theorem then_pure {rule : Rule σ α} (h : Performs items p (rule p)) (b : β) :
    Performs items p ((rule >>= fun _ => pure b) p) := by
  have hall : Performs (items ++ []) p ((rule >>= fun _ => pure b) p) :=
    h.bind fun _ q _ => nil b q
  rwa [List.append_nil] at hall

theorem look {spot : Spot} {result : EStateM.Result Diagnostic (Parser σ) α}
    (h : Performs (spot.plan p ++ items) p result) : Performs (.look spot :: items) p result := by
  refine of_leads (fun agenda => ?_) h
  rw [List.append_assoc]
  exact leads_look spot p (items ++ agenda)

/-- The act with which a rule fails, when nothing else is to be done after it. -/
theorem failing {result : EStateM.Result Diagnostic (Parser σ) α} (h : Performs items p result)
    {d : Diagnostic} (hfails : result = .error d q) :
    ∃ (act : Act) (left : List Item) (r : Parser σ),
      Leads ⟨items, p⟩ ⟨.act act :: left, r⟩ ∧ act.run r = .error d q := by
  subst hfails
  obtain ⟨act, left, r, hleads, hrun⟩ := h []
  rw [List.append_nil] at hleads
  exact ⟨act, left, r, hleads, hrun⟩

end Performs

theorem performs_act (act : Act) (p : Parser σ) : Performs [.act act] p (act.run p) := by
  cases hrun : act.run p with
  | ok _ q => exact leads_act hrun
  | error d q => exact fun agenda => ⟨act, agenda, p, .refl, hrun⟩

theorem Performs.act {act : Act} {items : List Item} {next : Unit → Rule σ α} {p : Parser σ}
    (h : ∀ q, act.run p = .ok () q → Performs items q (next () q)) :
    Performs (.act act :: items) p ((act.run >>= next) p) :=
  (performs_act act p).bind fun _ q hrun => h q hrun

theorem performs_failAt (token : Token) (cause : Cause) (items : List Item) (p : Parser σ) :
    Performs (.act (.failAt token cause) :: items) p
      (failAt token cause p : EStateM.Result Diagnostic (Parser σ) α) :=
  fun agenda => ⟨.failAt token cause, items ++ agenda, p, .refl, rfl⟩

theorem Performs.get {items : List Item} {next : Parser σ → Rule σ α}
    {p : Parser σ} (h : Performs items p (next p p)) : Performs items p ((get >>= next) p) :=
  h

theorem Performs.choice {test : Prop} [Decidable test] {xs ys : List Item} {yes no : Rule σ α}
    {p : Parser σ} (hyes : Performs xs p (yes p)) (hno : Performs ys p (no p)) :
    Performs (if test then xs else ys) p ((if test then yes else no : Rule σ α) p) := by
  by_cases htest : test
  · rw [if_pos htest, if_pos htest]
    exact hyes
  · rw [if_neg htest, if_neg htest]
    exact hno

theorem Performs.choice_bind {test : Prop} [Decidable test] {xs ys : List Item}
    {yes no : Rule σ β} {next : β → Rule σ α} {p : Parser σ}
    (hyes : Performs xs p ((yes >>= next) p)) (hno : Performs ys p ((no >>= next) p)) :
    Performs (if test then xs else ys) p (((if test then yes else no) >>= next) p) := by
  rw [apply_ite fun rule => rule >>= next]
  exact .choice hyes hno

/-- A rule that uses the token it moves on from, which is the current one. -/
theorem Performs.advance {items : List Item} {next : Token → Rule σ α} {p : Parser σ}
    (h : ∀ q, Parser.advance p = .ok p.current q → Performs items q (next p.current q)) :
    Performs (.act .advance :: items) p ((Parser.advance >>= next) p) := by
  cases hrun : Parser.advance p with
  | ok t q =>
    obtain ⟨rfl, -⟩ := advance_eq_ok hrun
    have hact : Act.advance.run p = .ok () q := discard_of_ok hrun
    rw [bind_of_ok hrun]
    exact .of_leads (fun agenda => leads_act hact (items ++ agenda)) (h q hrun)
  | error d q =>
    rw [bind_of_error hrun]
    exact fun agenda => ⟨.advance, items ++ agenda, p, .refl, bind_of_error hrun⟩

theorem Performs.expect {kind : Kind} {items : List Item} {next : Token → Rule σ α} {p : Parser σ}
    (h : ∀ q, Parser.advance p = .ok p.current q → Performs items q (next p.current q)) :
    Performs (if p.current.kind = kind then .act .advance :: items
      else [.act (.failAt p.current
        (.unexpectedToken p.current.description (some kind.description)))]) p
      ((Parser.expect kind >>= next) p) :=
  .choice_bind (.advance h) (performs_failAt _ _ _ p)

theorem performs_expect (kind : Kind) (p : Parser σ) :
    Performs [.look (.expect kind)] p ((discard (expect kind) : Rule σ Unit) p) := by
  refine .look ?_
  rw [List.append_nil]
  exact .expect fun q _ => .nil () q

theorem performs_name {naming : Naming} {next : Token → Rule σ Unit}
    (h : ∀ token (q : Parser σ), Performs (naming.items token) q (next token q)) (p : Parser σ) :
    Performs [.look (.name naming)] p ((expect .identifier >>= next) p) := by
  refine .look ?_
  rw [List.append_nil]
  exact .expect fun q _ => h p.current q

/-- A loop whose test and body a spot plans. -/
theorem performs_whileCurrent {test : Kind → Bool} {body : Rule σ Unit}
    {progress : ∀ p p', test p.current.kind = true → body p = .ok () p' → p'.size < p.size}
    {spot : Spot} (items : Parser σ → List Item)
    (hplan : ∀ p, spot.plan p =
      if test p.current.kind = true then items p ++ [.look spot] else [])
    (hbody : ∀ p, test p.current.kind = true → Performs (items p) p (body p)) (p : Parser σ) :
    Performs [.look spot] p (whileCurrent test body progress p) := by
  induction p using WellFounded.induction (measure fun q : Parser σ => q.size).wf with
  | _ p ih =>
    refine .look ?_
    rw [hplan, List.append_nil]
    cases htest : test p.current.kind with
    | false =>
      rw [whileCurrent_of_false htest]
      exact .nil () p
    | true =>
      rw [whileCurrent_of_true htest]
      exact (hbody p htest).bind fun _ q hrun => ih q (progress p q htest hrun)

theorem performs_skipNewlines {spot : Spot}
    (hplan : ∀ p : Parser σ, spot.plan p =
      if p.current.kind = .newline then [.act .advance, .look spot] else []) (p : Parser σ) :
    Performs [.look spot] p (skipNewlines p) :=
  performs_whileCurrent (fun _ => [.act .advance]) (fun q => by simp [hplan])
    (fun q _ => performs_act .advance q) p

theorem performs_leading (p : Parser σ) : Performs [.look .leading] p (skipNewlines p) :=
  performs_skipNewlines (fun _ => rfl) p

theorem performs_newlines (p : Parser σ) : Performs newlineItems p (newlines p) :=
  .act fun q _ => (performs_expect .newline q).bind fun _ r _ =>
    performs_skipNewlines (fun _ => rfl) r

/-- An act and then an advance, for the operands that are written. -/
theorem performs_emit_advance (text : String) (p : Parser σ) :
    Performs [.act (.emit text), .act .advance] p
      ((do emit text; discard advance : Rule σ Unit) p) :=
  .act fun q _ => performs_act .advance q

theorem performs_operand (p : Parser σ) : Performs [.look .operand] p (primary p) := by
  refine .look ?_
  rw [List.append_nil, Spot.plan]
  refine @Performs.act _ _ _ _ _ (fun _ => do operand p.current; discard advance) p
    fun q hnote => ?_
  unfold operand
  cases hkind : p.current.kind
  case number => exact performs_emit_advance _ q
  case identifier =>
    -- the note has left the names as they were
    cases hnote
    exact .choice_bind (performs_emit_advance _ _) (performs_failAt _ _ _ _)
  all_goals exact performs_failAt _ _ _ q

theorem performs_unary (p : Parser σ) : Performs unaryItems p (unary p) := by
  refine .act fun q _ => .look ?_
  change Performs _ q ((if isSign q.current.kind = true then
    (do let sign ← advance; emit sign.text; primary) else primary : Rule σ Unit) q)
  rw [Spot.plan]
  by_cases hsign : isSign q.current.kind = true
  · rw [if_pos hsign, if_pos hsign]
    exact .advance fun r _ => .act fun u _ => performs_operand u
  · rw [if_neg hsign, if_neg hsign]
    exact performs_operand q

theorem performs_operators (level : Precedence) {operand : Rule σ Unit}
    {consumes : Consumes operand} (h : ∀ p, Performs level.operandItems p (operand p))
    (p : Parser σ) :
    Performs [.look (.operators level)] p (operatorTail level.test operand consumes p) :=
  performs_whileCurrent
    (fun q => .act .advance :: .act (.emit s!" {q.current.text} ") :: level.operandItems)
    (fun q => by simp [Spot.plan])
    (fun q _ => .advance fun r _ => .act fun u _ => h u) p

theorem performs_term (p : Parser σ) : Performs termItems p (term p) :=
  .act fun q _ => (performs_unary q).bind fun _ r _ =>
    performs_operators .products performs_unary r

theorem performs_expression (p : Parser σ) : Performs expressionItems p (expression p) :=
  .act fun q _ => (performs_term q).bind fun _ r _ => performs_operators .sums performs_term r

theorem performs_comparison (p : Parser σ) : Performs comparisonItems p (comparison p) := by
  refine .act fun q _ => (performs_expression q).bind fun _ r _ => .look ?_
  rw [List.append_nil, Spot.plan]
  exact .choice (performs_operators .comparisons performs_expression r) (performs_failAt _ _ _ r)

theorem performs_print (p : Parser σ) :
    Performs [.act (.note "STATEMENT-PRINT"), .act .advance, .look .printed] p
      (printStatement p) := by
  refine .act fun _ _ => .act fun r _ => .look ?_
  rw [List.append_nil]
  exact .choice (.advance fun u _ => performs_act _ u)
    (.act fun u _ => (performs_expression u).bind fun _ v _ => performs_act _ v)

theorem performs_naming {title : String} {naming : Naming} {next : Token → Rule σ Unit}
    (h : ∀ token (q : Parser σ), Performs (naming.items token) q (next token q)) (p : Parser σ) :
    Performs [.act (.note title), .act .advance, .look (.name naming)] p
      ((do note title; discard advance; let token ← expect .identifier; next token) p) :=
  .act fun _ _ => .act fun r _ => performs_name h r

theorem performs_label (p : Parser σ) :
    Performs [.act (.note "STATEMENT-LABEL"), .act .advance, .look (.name .label)] p
      (labelStatement p) := by
  refine performs_naming (fun token q => ?_) p
  exact .act fun r _ => performs_act _ r

theorem performs_goto (p : Parser σ) :
    Performs [.act (.note "STATEMENT-GOTO"), .act .advance, .look (.name .goto)] p
      (gotoStatement p) := by
  refine performs_naming (fun token q => ?_) p
  exact .act fun r _ => performs_act _ r

theorem performs_assign (p : Parser σ) :
    Performs [.act (.note "STATEMENT-LET"), .act .advance, .look (.name .assign)] p
      (letStatement p) := by
  refine performs_naming (fun token q => ?_) p
  exact .act fun _ _ => .act fun r _ => (performs_expect _ r).bind fun _ u _ =>
    (performs_expression u).bind fun _ v _ => performs_act _ v

theorem performs_input (p : Parser σ) :
    Performs [.act (.note "STATEMENT-INPUT"), .act .advance, .look (.name .input)] p
      (inputStatement p) := by
  refine performs_naming (fun token q => ?_) p
  exact .act fun _ _ => .act fun _ _ => .act fun _ _ => .act fun _ _ => performs_act _ _

theorem performs_blockHead (title code : String) (follower : Keyword) (p : Parser σ) :
    Performs (headItems title code follower) p (blockHead title code follower p) :=
  .act fun _ _ => .act fun _ _ => .act fun q _ => (performs_comparison q).bind fun _ r _ =>
    (performs_expect _ r).bind fun _ u _ => (performs_newlines u).bind fun _ v _ =>
      performs_act _ v

theorem performs_simple {items : List Item} {rule : Rule σ Unit} {p : Parser σ}
    (h : Performs items p (rule p)) :
    Performs (items ++ newlineItems) p
      ((do rule; newlines; return none : Rule σ (Option Kind)) p) :=
  h.bind fun _ q _ => (performs_newlines q).then_pure none

theorem performs_opening (p : Parser σ) : Performs (openingItems p.current) p (opening p) := by
  unfold openingItems
  refine .get ?_
  cases hkind : p.current.kind
  case keyword word =>
    cases word
    case PRINT => exact performs_simple (performs_print p)
    case LABEL => exact performs_simple (performs_label p)
    case GOTO => exact performs_simple (performs_goto p)
    case LET => exact performs_simple (performs_assign p)
    case INPUT => exact performs_simple (performs_input p)
    case IF => exact (performs_blockHead _ _ _ p).then_pure _
    case WHILE => exact (performs_blockHead _ _ _ p).then_pure _
    all_goals exact performs_failAt _ _ _ p
  all_goals exact performs_failAt _ _ _ p

theorem performs_closing (terminator : Kind) (p : Parser σ) :
    Performs (closingItems terminator) p (closing terminator p) :=
  (performs_expect terminator p).bind fun _ _ _ => .act fun r _ => performs_newlines r

theorem blockEnd_of_opening {p q : Parser σ} {opened : Option Kind}
    (h : opening p = .ok opened q) : opened = blockEnd p.current.kind := by
  have simple {rule : Rule σ Unit}
      (hrun : (do rule; newlines; return none : Rule σ (Option Kind)) p = .ok opened q) :
      opened = none := by
    obtain ⟨_, _, _, hrun⟩ := bind_eq_ok hrun
    obtain ⟨_, _, _, hrun⟩ := bind_eq_ok hrun
    cases hrun
    rfl
  obtain ⟨_, _, hget, h⟩ := bind_eq_ok h
  cases hget
  cases hkind : p.current.kind <;> rw [hkind] at h
  case keyword word =>
    cases word
    case PRINT | LABEL | GOTO | LET | INPUT => exact simple h
    case IF | WHILE =>
      obtain ⟨_, _, _, h⟩ := bind_eq_ok h
      cases h
      rfl
    all_goals cases h
  all_goals cases h

/-- A statement, as far as the blocks behind `p` are done as planned. -/
theorem performs_statement {p : Parser σ}
    (hblock : ∀ (terminator : Kind) (q : Parser σ), q.size < p.size →
      Performs [.look (.block terminator)] q (block terminator q)) :
    Performs [.look .statement] p (statement p) := by
  refine .look ?_
  rw [List.append_nil, statement_eq, Spot.plan]
  refine (performs_opening p).bind fun opened q hopening => ?_
  have hsmaller : q.size < p.size := consumes_opening p opened q hopening
  rw [← blockEnd_of_opening hopening]
  cases opened with
  | none => exact .nil () q
  | some terminator =>
    exact (hblock terminator q hsmaller).bind fun _ r _ => performs_closing terminator r

theorem block_of_more {terminator : Kind} {p : Parser σ} (hhere : p.current.kind ≠ terminator)
    (hmore : p.current.kind ≠ .endOfInput) :
    block terminator p = (do statement; block terminator) p := by
  rw [block, whileCurrent_of_true (by simp [hhere]), bind_assoc,
    bind_of_ok (requireMore_of_more hmore)]

theorem block_of_end {terminator : Kind} {p : Parser σ} (hhere : p.current.kind ≠ terminator)
    (hend : p.current.kind = .endOfInput) :
    block terminator p = .error ⟨.unexpectedToken p.current.description
      (some terminator.description), some p.current.location, none⟩ p := by
  have hmore : requireMore terminator p = .error _ p := congrFun (if_pos hend) p
  rw [block, whileCurrent_of_true (by simp [hhere]), bind_assoc, bind_of_error hmore]

theorem performs_block (terminator : Kind) (p : Parser σ) :
    Performs [.look (.block terminator)] p (block terminator p) := by
  -- on the tokens that are left, for the blocks inside this one as well
  induction p using WellFounded.induction (measure fun q : Parser σ => q.size).wf
    generalizing terminator with
  | _ p ih =>
    refine .look ?_
    rw [List.append_nil, Spot.plan]
    by_cases hhere : p.current.kind = terminator
    · rw [if_pos hhere, block, whileCurrent_of_false (by simp [hhere])]
      exact .nil () p
    by_cases hend : p.current.kind = .endOfInput
    · rw [if_neg hhere, if_pos hend, block_of_end hhere hend]
      exact performs_act (.throw _) p
    · rw [if_neg hhere, if_neg hend, block_of_more hhere hend]
      refine (performs_statement fun inner q hsmaller => ih q hsmaller inner).bind
        fun _ q hstatement => ?_
      exact ih q (consumes_statement p _ q hstatement) terminator

theorem performs_statements (p : Parser σ) :
    Performs [.look (.block .endOfInput), .act .checkLabels, .act (.emitLine "return 0;"),
        .act (.emitLine "\x7d")] p
      ((do block .endOfInput; checkLabels; emitLine "return 0;"; emitLine "\x7d" : Rule σ _) p) :=
  (performs_block .endOfInput p).bind fun _ _ _ => .act fun _ _ => .act fun q _ => performs_act _ q

theorem performs_program (p : Parser σ) : Performs programItems p (program p) :=
  .act fun _ _ => .act fun _ _ => .act fun q _ => (performs_leading q).bind fun _ r _ =>
    performs_statements r

end TeenyLang.Parser
