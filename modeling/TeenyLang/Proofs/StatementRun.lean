import TeenyLang.Proofs.Descent
import TeenyLang.Proofs.ExpressionRun

set_option autoImplicit false

/-!
# Runs of the statement rules

The rules of statements and blocks against their trees, as for expressions: a rule that has the
tokens of a tree ahead does with the record what the tree says.
-/
namespace TeenyLang.Parser

open Grammar

variable {σ : Type}

theorem ends_declare (token : Token) (p : Parser σ) :
    Ends ((declare token.text : Rule σ Unit) p) () (p.record.run [⟨.target, token⟩] "")
      p.lookahead := by
  rw [Record.run_singleton]
  refine Ends.get ?_
  by_cases hn : p.variableNames.contains token.text = true
  · have huse : p.record.use ⟨.target, token⟩ = .ok p.record := congrArg Except.ok (if_pos hn)
    simp only [hn, ↓reduceIte, huse]
    exact ends_pure () p
  · have huse : p.record.use ⟨.target, token⟩ = .ok _ := congrArg Except.ok (if_neg hn)
    simp only [hn, Bool.false_eq_true, ↓reduceIte, huse]
    exact ⟨_, rfl, rfl, rfl⟩

theorem ends_declareLabel (token : Token) (p : Parser σ) :
    Ends ((declareLabel token : Rule σ Unit) p) () (p.record.run [⟨.label, token⟩] "")
      p.lookahead := by
  rw [Record.run_singleton]
  refine Ends.get ?_
  cases hl : p.labels.lookup token.text with
  | some first =>
    have huse : p.record.use ⟨.label, token⟩ =
        .error (p.record.fault token (.duplicateLabel token.text (some first))) := by
      simp only [Record.use, record, Use.name, hl]
    rw [huse]
    exact ends_failAt _ _ p () _
  | none =>
    have huse : p.record.use ⟨.label, token⟩ =
        .ok { p.record with labels := p.labels ++ [(token.text, token.location)] } := by
      simp only [Record.use, record, Use.name, hl]
    rw [huse]
    exact ⟨_, rfl, rfl, rfl⟩

theorem ends_recordJump (token : Token) (p : Parser σ) :
    Ends ((recordJump token : Rule σ Unit) p) () (p.record.run [⟨.jump, token⟩] "")
      p.lookahead := by
  rw [Record.run_singleton]
  cases hl : p.jumps.lookup token.text with
  | some first =>
    have huse : p.record.use ⟨.jump, token⟩ = .ok p.record := by
      simp only [Record.use, record, Use.name, hl]
    rw [huse]
    refine ⟨p, congrArg (EStateM.Result.ok ()) ?_, rfl, rfl⟩
    simp only [hl]
  | none =>
    have huse : p.record.use ⟨.jump, token⟩ =
        .ok { p.record with jumps := p.jumps ++ [(token.text, token.location)] } := by
      simp only [Record.use, record, Use.name, hl]
    rw [huse]
    refine ⟨{ p with jumps := p.jumps ++ [(token.text, token.location)] },
      congrArg (EStateM.Result.ok ()) ?_, rfl, rfl⟩
    simp only [hl]

variable [TokenSupply σ]

theorem concatMap_empty {ι : Type} (items : List ι) : concatMap (fun _ => "") items = "" := by
  induction items with
  | nil => rfl
  | cons i items ih => simp [concatMap, ih]

theorem ends_skipNewlines (items : List (Leaf [.newline])) {p : Parser σ} {l : Lookahead σ}
    (h : Passes p.lookahead (items.map Subtype.val) l) (hstop : l.current.kind ≠ .newline) :
    Ends (skipNewlines p) () (p.record.run [] "") l := by
  rw [List.map_eq_flatMap] at h
  have hends : Ends (skipNewlines p) ()
      (p.record.run (items.flatMap fun _ => []) (concatMap (fun _ => "") items)) l := by
    refine ends_whileCurrent _ (fun _ => True) items ?_ ?_ rfl h (by simpa using hstop) trivial
    · intro t _ q m _ ht _
      simpa using (ends_advance ht).discard
    · intro t _
      exact ⟨t.1, [], rfl, by simpa using List.mem_singleton.1 t.2, trivial⟩
  have hnone : (items.flatMap fun _ => []) = ([] : List Use) := List.flatMap_eq_nil_iff.2 (by simp)
  rwa [hnone, concatMap_empty] at hends

theorem ends_newlines (n : Newlines) {p : Parser σ} {l : Lookahead σ}
    (h : Passes p.lookahead n.tokens l) (hstop : l.current.kind ≠ .newline) :
    Ends (newlines p) () (.ok p.record) l := by
  obtain ⟨m, hfirst, hmore⟩ := h.uncons
  rw [← p.record.write_empty, ← Record.run_nil]
  refine Ends.bind_silent (ends_note _ p) fun q hq _ => ?_
  rw [← hq] at hfirst
  refine Ends.bind_silent (ends_expect n.first hfirst).discard fun q' hq' _ => ?_
  rw [← hq'] at hmore
  exact ends_skipNewlines n.more hmore hstop

theorem expression_head (e : Expression) :
    ∃ t ts, Expression.tokens e = t :: ts ∧
      t.kind ∈ [.number, .identifier, .operator .plus, .operator .minus] := by
  obtain ⟨⟨⟨sign, operand⟩, factors⟩, terms⟩ := e
  cases sign with
  | some sign =>
    refine ⟨sign.1, _, rfl, ?_⟩
    have := sign.2
    simp only [List.mem_cons, List.not_mem_nil, or_false] at this ⊢
    exact .inr (.inr this)
  | none =>
    refine ⟨operand.token, _, rfl, ?_⟩
    cases operand with
    | number t | ident t => simp [Primary.token, List.mem_singleton.1 t.2]

theorem ends_printStatement (word : Token) (printed : Printed) {p : Parser σ} {l : Lookahead σ}
    (h : Passes p.lookahead (word :: printed.tokens) l) (hstop : StopsExpression l.current.kind) :
    Ends (printStatement p) () (p.record.run printed.uses (printed.code p.precision)) l := by
  obtain ⟨m, hword, hprinted⟩ := h.uncons
  refine Ends.bind_silent (ends_note _ p) fun q hq hsame => ?_
  rw [← hq] at hword
  refine Ends.bind_silent (ends_advance hword).discard fun q' hq' hsame' => Ends.get ?_
  rw [← hq'] at hprinted
  rw [← hsame, ← hsame']
  cases printed with
  | text t =>
    have hcurrent : q'.current = t.1 := hprinted.head_eq
    simp only [hcurrent, List.mem_singleton.1 t.2, ↓reduceIte]
    refine Ends.bind_silent (ends_advance hprinted) fun q'' hq'' _ => ?_
    subst hq''
    exact ends_emitLine _ q''
  | value e =>
    obtain ⟨t, ts, htokens, hkind⟩ := expression_head e
    have hnostring : q'.current.kind ≠ .string := by
      have hcurrent : q'.current = t := by
        rw [Printed.tokens, htokens] at hprinted
        exact hprinted.head_eq
      rw [hcurrent]
      intro hstring
      rw [hstring] at hkind
      simp at hkind
    simp only [hnostring, ↓reduceIte]
    have hcode : (Printed.value e).code q'.precision =
        ("printf(\"%." ++ toString q'.precision ++ "f\\n\", (float)(") ++
          (Expression.code e ++ line "));") := by
      simp [Printed.code, line, String.append_assoc]
    rw [hcode]
    refine Ends.bind_write (ends_emit _ q') fun r hr _ => ?_
    rw [← hr] at hprinted
    refine Ends.bind_then_write (ends_expression e hprinted hstop) fun r' hr' _ => ?_
    subst hr'
    exact ends_emitLine _ r'

/-- A word and a name, with what is done at the name. -/
theorem ends_naming {title : String} {action : Token → Rule σ Unit} {word : Token}
    (name : Leaf [.identifier]) {uses : List Use} {code : String} {p : Parser σ}
    {m l : Lookahead σ} (h : Passes p.lookahead [word, name.1] m)
    (haction : ∀ q : Parser σ, q.lookahead = m →
      Ends (action name.1 q) () (q.record.run uses code) l) :
    Ends ((do
      note title
      discard advance
      let token ← expect .identifier
      action token : Rule σ Unit) p) () (p.record.run uses code) l := by
  obtain ⟨_, hword, hname⟩ := h.uncons
  refine Ends.bind_silent (ends_note _ p) fun q hq _ => ?_
  rw [← hq] at hword
  refine Ends.bind_silent (ends_advance hword).discard fun q' hq' _ => ?_
  rw [← hq'] at hname
  exact Ends.bind_silent (ends_expect name hname) fun q'' hq'' _ => haction q'' hq''

theorem ends_labelStatement {word : Token} (name : Leaf [.identifier]) {p : Parser σ}
    {l : Lookahead σ} (h : Passes p.lookahead [word, name.1] l) :
    Ends (labelStatement p) ()
      (p.record.run [⟨.label, name.1⟩] (line (Target.name name.1.text ++ ":;"))) l := by
  refine ends_naming name h fun q hq => ?_
  rw [← String.empty_append (s := line _)]
  refine Ends.bind_then_write (ends_declareLabel name.1 q) fun q' hq' _ => ?_
  rw [← hq, ← hq']
  exact ends_emitLine _ q'

theorem ends_gotoStatement {word : Token} (name : Leaf [.identifier]) {p : Parser σ}
    {l : Lookahead σ} (h : Passes p.lookahead [word, name.1] l) :
    Ends (gotoStatement p) ()
      (p.record.run [⟨.jump, name.1⟩] (line ("goto " ++ Target.name name.1.text ++ ";"))) l := by
  refine ends_naming name h fun q hq => ?_
  rw [← String.empty_append (s := line _)]
  refine Ends.bind_then_write (ends_recordJump name.1 q) fun q' hq' _ => ?_
  rw [← hq, ← hq']
  exact ends_emitLine _ q'

theorem ends_inputStatement {word : Token} (name : Leaf [.identifier]) {p : Parser σ}
    {l : Lookahead σ} (h : Passes p.lookahead [word, name.1] l) :
    Ends (inputStatement p) ()
      (p.record.run [⟨.target, name.1⟩] (inputCode (Target.name name.1.text))) l := by
  refine ends_naming name h fun q hq => ?_
  have hcode : ∀ target, inputCode target = "" ++
      (line ("if (0 == scanf(\"%f\", &" ++ target ++ ")) \x7b") ++ (line (target ++ " = 0;") ++
        (line "scanf(\"%*s\");" ++ line "\x7d"))) := by
    simp [inputCode, String.append_assoc]
  rw [hcode]
  refine Ends.bind_then_write (ends_declare name.1 q) fun q₁ h₁ _ => ?_
  rw [← Record.run_nil]
  refine Ends.bind_write (ends_emitLine _ q₁) fun q₂ h₂ _ => ?_
  refine Ends.bind_write (ends_emitLine _ q₂) fun q₃ h₃ _ => ?_
  refine Ends.bind_write (ends_emitLine _ q₃) fun q₄ h₄ _ => ?_
  rw [← hq, ← h₁, ← h₂, ← h₃, ← h₄]
  exact ends_emitLine _ q₄

theorem ends_letStatement {word : Token} (name : Leaf [.identifier])
    (equals : Leaf [.operator .assign]) (e : Expression) {p : Parser σ} {l : Lookahead σ}
    (h : Passes p.lookahead (word :: name.1 :: equals.1 :: Expression.tokens e) l)
    (hstop : StopsExpression l.current.kind) :
    Ends (letStatement p) ()
      (p.record.run (⟨.target, name.1⟩ :: Expression.uses e)
        (line (Target.name name.1.text ++ " = " ++ Expression.code e ++ ";"))) l := by
  have hall : Passes p.lookahead ([word, name.1] ++ equals.1 :: Expression.tokens e) l := h
  obtain ⟨m, hname, hrest⟩ := hall.split
  obtain ⟨_, hequals, hvalue⟩ := hrest.uncons
  have hcode : line (Target.name name.1.text ++ " = " ++ Expression.code e ++ ";") =
      "" ++ ((Target.name name.1.text ++ " = ") ++ (Expression.code e ++ line ";")) := by
    simp [line, String.append_assoc]
  rw [hcode]
  refine ends_naming name hname fun q hq => ?_
  refine Ends.bind (ends_declare name.1 q) fun q₁ h₁ _ => ?_
  refine Ends.bind_write (ends_emit _ q₁) fun q₂ h₂ _ => ?_
  rw [← hq, ← h₁, ← h₂] at hequals
  refine Ends.bind_silent (ends_expect equals hequals).discard fun q₃ h₃ _ => ?_
  rw [← h₃] at hvalue
  refine Ends.bind_then_write (ends_expression e hvalue hstop) fun q₄ h₄ _ => ?_
  rw [← h₄]
  exact ends_emitLine _ q₄

theorem stopsExpression_keyword (word : Keyword) : StopsExpression (.keyword word) := by
  constructor <;> simp [isFactorOperator, isSign]

theorem stopsExpression_newline : StopsExpression .newline := by
  constructor <;> decide

theorem ends_blockHead {title code : String} {word : Token} (condition : Comparison)
    {keyword : Keyword} (follower : Leaf [.keyword keyword]) (gap : Newlines) {p : Parser σ}
    {l : Lookahead σ}
    (h : Passes p.lookahead
      (word :: (Comparison.tokens condition ++ follower.1 :: gap.tokens)) l)
    (hstop : l.current.kind ≠ .newline) :
    Ends (blockHead title code keyword p) ()
      (p.record.run (Comparison.uses condition)
        (line (code ++ Comparison.code condition ++ ") \x7b"))) l := by
  obtain ⟨m₁, hword, h⟩ := h.uncons
  obtain ⟨m₂, hcondition, h⟩ := h.split
  have hm₂ : m₂.current.kind = .keyword keyword := by
    rw [h.head_eq]
    exact List.mem_singleton.1 follower.2
  obtain ⟨m₃, hfollower, hgap⟩ := h.uncons
  have hcode : line (code ++ Comparison.code condition ++ ") \x7b") =
      code ++ (Comparison.code condition ++ line ") \x7b") := by
    simp [line, String.append_assoc]
  rw [hcode]
  refine Ends.bind_silent (ends_note _ p) fun q₁ h₁ _ => ?_
  rw [← h₁] at hword
  refine Ends.bind_silent (ends_advance hword).discard fun q₂ h₂ _ => ?_
  refine Ends.bind_write (ends_emit _ q₂) fun q₃ h₃ _ => ?_
  rw [← h₂, ← h₃] at hcondition
  have hends : Ends (comparison q₃) () _ m₂ :=
    ends_comparison condition hcondition (hm₂ ▸ stopsExpression_keyword keyword)
      (by rw [hm₂]; rfl)
  refine Ends.bind_then_write hends fun q₄ h₄ _ => ?_
  rw [← h₄] at hfollower
  rw [← Record.run_nil]
  refine Ends.bind_silent (ends_expect follower hfollower).discard fun q₅ h₅ _ => ?_
  rw [← h₅] at hgap
  refine Ends.bind_silent (ends_newlines gap hgap hstop) fun q₆ h₆ _ => ?_
  rw [← h₆]
  exact ends_emitLine _ q₆

/-- A statement without a block: its rule and then the newlines. -/
theorem ends_simple {rule : Rule σ Unit} {uses : List Use} {code : String} (tokens : List Token)
    (ending : Newlines) {p : Parser σ} {l : Lookahead σ}
    (h : Passes p.lookahead (tokens ++ ending.tokens) l) (hstop : l.current.kind ≠ .newline)
    (hrule : ∀ m : Lookahead σ, Passes p.lookahead tokens m → m.current.kind = .newline →
      Ends (rule p) () (p.record.run uses code) m) :
    Ends ((do rule; newlines; return none : Rule σ (Option Kind)) p) none
      (p.record.run uses code) l := by
  obtain ⟨m, htokens, hending⟩ := h.split
  have hm : m.current.kind = .newline := by
    rw [hending.head_eq]
    exact List.mem_singleton.1 ending.first.2
  refine Ends.bind_then_silent (hrule m htokens hm) fun q hq _ => ?_
  rw [← hq] at hending
  rw [← q.record.write_empty, ← Record.run_nil]
  refine Ends.bind_silent (ends_newlines ending hending hstop) fun q' hq' _ => ?_
  rw [← hq']
  simpa using ends_pure none q'

def openingTokens {form : BlockForm} (word : Leaf [.keyword form.opener]) (condition : Comparison)
    (follower : Leaf [.keyword form.follower]) (gap : Newlines) : List Token :=
  word.1 :: (Comparison.tokens condition ++ follower.1 :: gap.tokens)

theorem ends_opening_block {form : BlockForm} (word : Leaf [.keyword form.opener])
    (condition : Comparison) (follower : Leaf [.keyword form.follower]) (gap : Newlines)
    {p : Parser σ} {l : Lookahead σ}
    (h : Passes p.lookahead (openingTokens word condition follower gap) l)
    (hstop : l.current.kind ≠ .newline) :
    Ends (opening p) (some (.keyword form.closer))
      (p.record.run (Comparison.uses condition)
        (line (form.word ++ " (" ++ Comparison.code condition ++ ") \x7b"))) l := by
  have hcurrent : p.current = word.1 := h.head_eq
  have hkind : p.current.kind = .keyword form.opener := by
    rw [hcurrent]
    exact List.mem_singleton.1 word.2
  refine Ends.get ?_
  cases form with
  | ifThen | whileRepeat =>
    simp only [hkind, BlockForm.opener]
    refine Ends.bind_then_silent (ends_blockHead condition follower gap h hstop) fun q hq _ => ?_
    rw [← hq]
    exact ends_pure _ q

theorem ends_closing {keyword : Keyword} (closer : Leaf [.keyword keyword]) (ending : Newlines)
    {p : Parser σ} {l : Lookahead σ} (h : Passes p.lookahead (closer.1 :: ending.tokens) l)
    (hstop : l.current.kind ≠ .newline) :
    Ends (closing (.keyword keyword) p) () (p.record.run [] (line "\x7d")) l := by
  obtain ⟨m, hcloser, hending⟩ := h.uncons
  refine Ends.bind_silent (ends_expect closer hcloser).discard fun q hq _ => ?_
  refine Ends.bind_then_silent (ends_emitLine _ q) fun q' hq' _ => ?_
  rw [← hq, ← hq'] at hending
  exact ends_newlines ending hending hstop

def starters : List Keyword :=
  [.PRINT, .IF, .WHILE, .LABEL, .GOTO, .LET, .INPUT]

theorem statement_head (s : Statement) :
    ∃ word t ts, s.tokens = t :: ts ∧ t.kind = .keyword word ∧ word ∈ starters := by
  cases s with
  | print word => exact ⟨_, word.1, _, rfl, List.mem_singleton.1 word.2, by decide⟩
  | label word => exact ⟨_, word.1, _, rfl, List.mem_singleton.1 word.2, by decide⟩
  | goto word => exact ⟨_, word.1, _, rfl, List.mem_singleton.1 word.2, by decide⟩
  | assign word => exact ⟨_, word.1, _, rfl, List.mem_singleton.1 word.2, by decide⟩
  | input word => exact ⟨_, word.1, _, rfl, List.mem_singleton.1 word.2, by decide⟩
  | block form word =>
    exact ⟨_, word.1, _, rfl, List.mem_singleton.1 word.2, by cases form <;> decide⟩

/-- A run of newlines before statements stops at the first of them or at what ends them. -/
theorem body_head_ne_newline {body : List Statement} {l m : Lookahead σ}
    (h : Passes m (bodyTokens body) l) (hl : l.current.kind ≠ .newline) :
    m.current.kind ≠ .newline := by
  cases body with
  | nil =>
    cases Passes.nil_iff.1 h
    exact hl
  | cons s rest =>
    obtain ⟨word, t, ts, hhead, hkind, _⟩ := statement_head s
    rw [bodyTokens, hhead] at h
    rw [h.head_eq, hkind]
    simp

/-- A kind that can end a list of statements. -/
def EndsBody (kind : Kind) : Prop :=
  (∀ word ∈ starters, kind ≠ .keyword word) ∧ kind ≠ .newline

theorem endsBody_closer (form : BlockForm) : EndsBody (.keyword form.closer) := by
  refine ⟨?_, by simp⟩
  cases form <;> decide

theorem endsBody_endOfInput : EndsBody .endOfInput := by
  constructor <;> simp

/-- What the rule of statements does with the tokens of `s` ahead. -/
def StatementEnds (σ : Type) [TokenSupply σ] (s : Statement) : Prop :=
  ∀ (p : Parser σ) (l : Lookahead σ), Passes p.lookahead s.tokens l →
    l.current.kind ≠ .newline →
      Ends (statement p) () (p.record.run s.uses (s.code p.precision)) l

theorem ends_block {terminator : Kind} (hends : EndsBody terminator) (body : List Statement)
    (hbody : ∀ s ∈ body, StatementEnds σ s) {p : Parser σ} {l : Lookahead σ}
    (h : Passes p.lookahead (bodyTokens body) l) (hl : l.current.kind = terminator) :
    Ends (block terminator p) () (p.record.run (bodyUses body) (bodyCode p.precision body)) l := by
  rw [bodyTokens_eq_flatMap] at h
  rw [bodyUses_eq_flatMap, bodyCode_eq_concatMap]
  refine ends_whileCurrent Statement.tokens (· ≠ .newline) body ?_ ?_ rfl h (by simp [hl])
    (by simpa [hl] using hends.2)
  · intro s hs q m hsame htokens hm
    obtain ⟨word, t, ts, hhead, hkind, _⟩ := statement_head s
    have hcurrent : q.current.kind = .keyword word := by
      rw [hhead] at htokens
      rw [← hkind, ← htokens.head_eq]
      rfl
    rw [bind_of_ok (requireMore_of_more (by simp [hcurrent])), ← hsame]
    exact hbody s hs q m htokens hm
  · intro s _
    obtain ⟨word, t, ts, hhead, hkind, hword⟩ := statement_head s
    have hne : t.kind ≠ terminator := by
      rw [hkind]
      exact (hends.1 word hword).symm
    exact ⟨t, ts, hhead, by simpa using hne, by simp [hkind]⟩

theorem ends_statement_of_opening {p : Parser σ} {uses : List Use} {code : String}
    {l : Lookahead σ} (h : Ends (opening p) none (p.record.run uses code) l) :
    Ends (statement p) () (p.record.run uses code) l := by
  rw [statement_eq]
  refine Ends.bind_then_silent h fun q hq _ => ?_
  rw [← hq]
  exact ends_pure () q

theorem current_kind {p : Parser σ} {kind : Kind} (t : Leaf [kind]) {ts : List Token}
    {l : Lookahead σ} (h : Passes p.lookahead (t.1 :: ts) l) : p.current.kind = kind := by
  have hcurrent : p.current = t.1 := h.head_eq
  rw [hcurrent]
  exact List.mem_singleton.1 t.2

theorem ends_statement (s : Statement) : StatementEnds σ s := by
  induction s using Statement.induction with
  | print word printed ending =>
    intro p l h hstop
    refine ends_statement_of_opening (Ends.get ?_)
    simp only [current_kind word h]
    refine ends_simple (word.1 :: printed.tokens) ending h hstop fun m hm hkind => ?_
    exact ends_printStatement word.1 printed hm (hkind ▸ stopsExpression_newline)
  | label word name ending =>
    intro p l h hstop
    refine ends_statement_of_opening (Ends.get ?_)
    simp only [current_kind word h]
    exact ends_simple [word.1, name.1] ending h hstop fun m hm _ => ends_labelStatement name hm
  | goto word name ending =>
    intro p l h hstop
    refine ends_statement_of_opening (Ends.get ?_)
    simp only [current_kind word h]
    exact ends_simple [word.1, name.1] ending h hstop fun m hm _ => ends_gotoStatement name hm
  | assign word name equals value ending =>
    intro p l h hstop
    refine ends_statement_of_opening (Ends.get ?_)
    simp only [current_kind word h]
    refine ends_simple (word.1 :: name.1 :: equals.1 :: Expression.tokens value) ending h hstop
      fun m hm hkind => ?_
    exact ends_letStatement name equals value hm (hkind ▸ stopsExpression_newline)
  | input word name ending =>
    intro p l h hstop
    refine ends_statement_of_opening (Ends.get ?_)
    simp only [current_kind word h]
    exact ends_simple [word.1, name.1] ending h hstop fun m hm _ => ends_inputStatement name hm
  | block form word condition follower gap body closer ending ih =>
    intro p l h hstop
    have htokens : (Statement.block form word condition follower gap body closer ending).tokens =
        openingTokens word condition follower gap ++
          (bodyTokens body ++ closer.1 :: ending.tokens) := by
      simp [Statement.tokens, openingTokens]
    rw [htokens] at h
    obtain ⟨m₁, hopening, h⟩ := h.split
    obtain ⟨m₂, hbody, hclosing⟩ := h.split
    have hm₂ : m₂.current.kind = .keyword form.closer := by
      rw [hclosing.head_eq]
      exact List.mem_singleton.1 closer.2
    have hm₁ := body_head_ne_newline hbody (by simp [hm₂])
    rw [statement_eq, Statement.uses, Statement.code, String.append_assoc]
    refine Ends.bind (ends_opening_block word condition follower gap hopening hm₁)
      fun q hq hsame => ?_
    rw [← hq] at hbody
    rw [← hsame]
    refine Ends.bind_then_write (ends_block (endsBody_closer form) body ih hbody hm₂)
      fun q' hq' _ => ?_
    rw [← hq'] at hclosing
    exact ends_closing closer ending hclosing hstop

end TeenyLang.Parser
