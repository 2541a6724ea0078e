import TeenyLang.Proofs.ControlPoints

set_option autoImplicit false

/-!
# Runs of an agenda

What all runs have in common, whatever is claimed of them. A step is an act that succeeds or a look
(`Config.Moves`), there is only one from a configuration, and what the acts and the looks keep is
kept to the end (`Leads.keeps`). No plan depends on more than the parser shows (`Spot.plan_face`),
and no act but moving on depends on the tokens ahead (`Act.run_onto`).
-/
namespace TeenyLang.Parser

def Act.stays : Act → Bool
  | advance | failAt .. | throw _ => false
  | _ => true

theorem Act.ne_advance {act : Act} (hstays : act.stays = true) : act ≠ .advance := by
  rintro rfl
  cases hstays

variable {σ τ α : Type}

def ending : EStateM.Result Diagnostic (Parser σ) α → Parser σ
  | .ok _ p => p
  | .error _ p => p

/-- All that the rules look at: not the supply, nor the token after the current one. -/
def face (p : Parser σ) : Parser Unit :=
  { p with supply := (), peek := unread, count := 0 }

theorem Spot.plan_face (spot : Spot) (p : Parser σ) : spot.plan p.face = spot.plan p := by
  cases spot <;> rfl

/-- What `p` has noted down, with other tokens ahead. -/
def onto (p : Parser σ) (l : Lookahead τ) (count : Nat) : Parser τ :=
  { p with supply := l.supply, current := l.current, peek := l.peek, count := count }

def resultOnto (l : Lookahead τ) (count : Nat) :
    EStateM.Result Diagnostic (Parser σ) α → EStateM.Result Diagnostic (Parser τ) α
  | .ok a p => .ok a (p.onto l count)
  | .error d p => .error d (p.onto l count)

/-- The parser with a pulled token ahead and one token less before it. -/
def shifted (p : Parser σ) (token : Token) (supply : σ) : Parser σ :=
  { p with
    supply := supply
    current := p.peek
    peek := token
    count := if token.kind = .endOfInput then p.count else p.count + 1 }

/-! ## Entries -/

section Entries

variable {p : Parser σ} {token : Token}

theorem declare_of_known {name : String} (h : p.variableNames.contains name = true) :
    declare name p = .ok () p :=
  congrFun (if_pos h) p

theorem declare_of_new {name : String} (h : ¬ p.variableNames.contains name = true) :
    declare name p = .ok () { p with
      trace := p.trace.push s!"Declaring variable '{name}'"
      variableNames := p.variableNames ++ [name]
      listing := p.listing.declare s!"float {Target.name name};" } :=
  congrFun (if_neg h) p

theorem declareLabel_of_none (h : p.labels.lookup token.text = none) :
    declareLabel token p =
      .ok () { p with labels := p.labels ++ [(token.text, token.location)] } := by
  refine (bind_of_ok rfl).trans ?_
  rw [h]
  rfl

theorem declareLabel_of_some {first : Location} (h : p.labels.lookup token.text = some first) :
    declareLabel token p = failAt token (.duplicateLabel token.text (some first)) p := by
  refine (bind_of_ok rfl).trans ?_
  rw [h]

theorem recordJump_of_none (h : p.jumps.lookup token.text = none) :
    recordJump token p = .ok () { p with jumps := p.jumps ++ [(token.text, token.location)] } := by
  refine congrArg (EStateM.Result.ok ()) ?_
  simp only [h]

theorem recordJump_of_some {first : Location} (h : p.jumps.lookup token.text = some first) :
    recordJump token p = .ok () p := by
  refine congrArg (EStateM.Result.ok ()) ?_
  simp only [h]

theorem checkLabels_of_none (h : p.missingJumps = []) : checkLabels p = .ok () p :=
  congrFun (if_pos (List.isEmpty_iff.2 h)) p

theorem checkLabels_of_some (h : p.missingJumps ≠ []) :
    checkLabels p = .error (.missingLabels (p.missingJumps.map Prod.fst)
      (p.missingJumps.map fun jump => some jump.2)) p :=
  congrFun (if_neg (mt List.isEmpty_iff.1 h)) p

end Entries

/-! ## Acts -/

variable [TokenSupply σ] [TokenSupply τ]

theorem Act.advance_of_pull {p : Parser σ} {token : Token} {supply : σ}
    (h : TokenSupply.pull p.supply = .ok token supply) :
    Act.advance.run p = .ok () (p.shifted token supply) :=
  discard_of_ok (by simp only [Parser.advance, h]; rfl)

theorem Act.advance_of_fault {p : Parser σ} {d : Diagnostic} {supply : σ}
    (h : TokenSupply.pull p.supply = .error d supply) :
    Act.advance.run p = .error d { p with supply := supply, current := p.peek } :=
  bind_of_error (by simp only [Parser.advance, h])

theorem Act.advance_eq_ok {p q : Parser σ} (h : Act.advance.run p = .ok () q) :
    ∃ token supply, TokenSupply.pull p.supply = .ok token supply ∧ q = p.shifted token supply := by
  cases hpull : TokenSupply.pull p.supply with
  | ok token supply =>
    cases (Act.advance_of_pull hpull).symm.trans h
    exact ⟨token, supply, rfl, rfl⟩
  | error d supply => cases (Act.advance_of_fault hpull).symm.trans h

theorem Act.run_onto {act : Act} (h : act ≠ .advance) (p : Parser σ) (l : Lookahead τ)
    (count : Nat) : act.run (p.onto l count) = resultOnto l count (act.run p) := by
  cases act with
  | advance => exact absurd rfl h
  | note | emit | emitLine | emitDeclaration | failAt | throw => rfl
  | declare name =>
    change Parser.declare name (p.onto l count) = resultOnto l count (Parser.declare name p)
    by_cases hknown : p.variableNames.contains name = true
    · rw [declare_of_known hknown, declare_of_known (p := p.onto l count) hknown]
      rfl
    · rw [declare_of_new hknown, declare_of_new (p := p.onto l count) hknown]
      rfl
  | declareLabel token =>
    change Parser.declareLabel token (p.onto l count) =
      resultOnto l count (Parser.declareLabel token p)
    cases hlabel : p.labels.lookup token.text with
    | some first =>
      rw [declareLabel_of_some hlabel, declareLabel_of_some (p := p.onto l count) hlabel]
      rfl
    | none =>
      rw [declareLabel_of_none hlabel, declareLabel_of_none (p := p.onto l count) hlabel]
      rfl
  | recordJump token =>
    change Parser.recordJump token (p.onto l count) = resultOnto l count (Parser.recordJump token p)
    cases hjump : p.jumps.lookup token.text with
    | some first =>
      rw [recordJump_of_some hjump, recordJump_of_some (p := p.onto l count) hjump]
      rfl
    | none =>
      rw [recordJump_of_none hjump, recordJump_of_none (p := p.onto l count) hjump]
      rfl
  | checkLabels =>
    change Parser.checkLabels (p.onto l count) = resultOnto l count (Parser.checkLabels p)
    by_cases hnone : p.missingJumps = []
    · rw [checkLabels_of_none hnone, checkLabels_of_none (p := p.onto l count) hnone]
      rfl
    · rw [checkLabels_of_some hnone, checkLabels_of_some (p := p.onto l count) hnone]
      rfl

theorem Act.run_eq_onto {act : Act} (h : act ≠ .advance) (p : Parser σ) :
    act.run p = resultOnto p.lookahead p.count (act.run p) :=
  act.run_onto h p p.lookahead p.count

/-- Every act but moving on leaves the tokens ahead alone, also when it fails. -/
theorem Act.lookahead_ending {act : Act} (h : act ≠ .advance) (p : Parser σ) :
    (ending (act.run p)).lookahead = p.lookahead := by
  rw [act.run_eq_onto h p]
  cases act.run p <;> rfl

theorem Act.still {act : Act} (h : act ≠ .advance) : Still (act.run : Rule σ Unit) := by
  intro p a q hrun
  have hsame := act.lookahead_ending h p
  rw [hrun] at hsame
  exact hsame.symm

theorem Act.eq_advance_of_ok {act : Act} {p q : Parser σ}
    (hrun : act.run p = .ok () q) (hhalts : act.stays = false) : act = .advance := by
  cases act with
  | advance => rfl
  | failAt | throw => cases hrun
  | _ => cases hhalts

/-! ## Steps -/

inductive Config.Moves : Config σ → Config σ → Prop
  | act {act : Act} {agenda : List Item} {p q : Parser σ} (h : act.run p = .ok () q) :
      Moves ⟨.act act :: agenda, p⟩ ⟨agenda, q⟩
  | look (spot : Spot) (agenda : List Item) (p : Parser σ) :
      Moves ⟨.look spot :: agenda, p⟩ ⟨spot.plan p ++ agenda, p⟩

theorem Config.moves_of_next {c c' : Config σ} (h : c.next = some c') : c.Moves c' := by
  obtain ⟨agenda, p⟩ := c
  match agenda with
  | [] => cases h
  | .look spot :: agenda =>
    cases h
    exact .look spot agenda p
  | .act act :: agenda =>
    simp only [Config.next] at h
    split at h
    · next hrun =>
      cases h
      exact .act hrun
    · cases h

/-- What every step keeps holds at all points of a run. -/
theorem Leads.keeps (holds : Config σ → Prop)
    (hmoves : ∀ c c' : Config σ, c.Moves c' → holds c → holds c') {c c' : Config σ}
    (h : Leads c c') (hc : holds c) : holds c' := by
  induction h with
  | refl => exact hc
  | tail _ hnext ih => exact hmoves _ _ (Config.moves_of_next hnext) ih

/-- If every step of one run can be followed by steps of another, the whole run can. -/
theorem Leads.follow (tied : Config σ → Config τ → Prop)
    (hmoves : ∀ c c' d, c.Moves c' → tied c d → ∃ d', Leads d d' ∧ tied c' d') {c c' : Config σ}
    {d : Config τ} (h : Leads c c') (hd : tied c d) : ∃ d', Leads d d' ∧ tied c' d' := by
  induction h with
  | refl => exact ⟨d, .refl, hd⟩
  | tail _ hnext ih =>
    obtain ⟨d', hleads, htied⟩ := ih
    obtain ⟨d'', hleads', htied'⟩ := hmoves _ _ d' (Config.moves_of_next hnext) htied
    exact ⟨d'', hleads.trans hleads', htied'⟩

/-! ## Ends -/

inductive Config.Ends {α : Type} : Config σ → EStateM.Result Diagnostic (Parser σ) α → Prop
  | done (a : α) (q : Parser σ) : Ends ⟨[], q⟩ (.ok a q)
  | failed {act : Act} {rest : List Item} {p q : Parser σ} {d : Diagnostic}
      (h : act.run p = .error d q) : Ends ⟨.act act :: rest, p⟩ (.error d q)

theorem Config.Ends.next {c : Config σ} {result : EStateM.Result Diagnostic (Parser σ) α}
    (h : c.Ends result) : c.next = none := by
  cases h with
  | done => rfl
  | failed h => simp only [Config.next, h]

theorem Config.Ends.unique {c : Config σ}
    {result result' : EStateM.Result Diagnostic (Parser σ) Unit} (h : c.Ends result)
    (h' : c.Ends result') : result = result' := by
  cases h with
  | done => cases h' with | done => rfl
  | failed h =>
    cases h' with
    | failed h' => exact h.symm.trans h'

theorem Performs.ends {items : List Item} {p : Parser σ}
    {result : EStateM.Result Diagnostic (Parser σ) α} (h : Performs items p result) :
    ∃ c, Leads ⟨items, p⟩ c ∧ c.Ends result := by
  cases result with
  | ok a q =>
    have hleads := h []
    rw [List.append_nil] at hleads
    exact ⟨⟨[], q⟩, hleads, .done a q⟩
  | error d q =>
    obtain ⟨act, rest, r, hleads, hfails⟩ := h.failing rfl
    exact ⟨⟨.act act :: rest, r⟩, hleads, .failed hfails⟩

/-- There is only one way to go on. -/
theorem Leads.toEnd {c d e : Config σ} (hd : Leads c d) (he : Leads c e) (hend : e.next = none) :
    Leads d e := by
  have hunique : Relator.RightUnique fun c c' : Config σ => c.next = some c' :=
    fun _ _ _ h h' => Option.some.inj (h.symm.trans h')
  rcases Relation.ReflTransGen.total_of_right_unique hunique hd he with h | h
  · exact h
  · rcases h.cases_head with rfl | ⟨_, hnext, _⟩
    · exact .refl
    · cases hend.symm.trans hnext

/-- One step or more. -/
abbrev LeadsOn : Config σ → Config σ → Prop :=
  Relation.TransGen fun c c' => c.next = some c'

def Config.Comes (c : Config σ) (result : EStateM.Result Diagnostic (Parser σ) Unit) : Prop :=
  ∃ e, Leads c e ∧ e.Ends result

section Comes

variable {c c' : Config σ} {result result' : EStateM.Result Diagnostic (Parser σ) Unit}
  {items rest : List Item} {p : Parser σ}

theorem Config.Comes.of_leads (h : c.Comes result) (hleads : Leads c c') : c'.Comes result := by
  obtain ⟨e, he, hends⟩ := h
  exact ⟨e, hleads.toEnd he hends.next, hends⟩

theorem Config.Comes.eq_of_ends (h : c.Comes result) (hends : c.Ends result') :
    result = result' := by
  obtain ⟨e, he, hresult⟩ := h
  rcases he.cases_head with rfl | ⟨_, hnext, _⟩
  · exact hresult.unique hends
  · cases hends.next.symm.trans hnext

/-- Wherever the items lead to an end, the rule has come to that. -/
theorem Performs.eq_of_leads (h : Performs items p result) (hleads : Leads ⟨items, p⟩ c)
    (hends : c.Ends result') : result = result' := by
  have hcomes : Config.Comes ⟨items, p⟩ result := h.ends
  exact (hcomes.of_leads hleads).eq_of_ends hends

/-- What comes to an end does not go on for ever. -/
theorem Config.Comes.acc (h : c.Comes result) : Acc (fun c' c : Config σ => LeadsOn c c') c := by
  have hacc : Acc (fun c' c : Config σ => c.next = some c') c := by
    obtain ⟨e, he, hends⟩ := h
    induction he using Relation.ReflTransGen.head_induction_on with
    | refl => exact ⟨_, fun c' hnext => by cases hends.next.symm.trans hnext⟩
    | head hfirst _ ih =>
      refine ⟨_, fun c' hnext => ?_⟩
      cases hfirst.symm.trans hnext
      exact ih
  exact Subrelation.accessible (fun h => Relation.transGen_swap.1 h) hacc.transGen

theorem Performs.leadsOn {a : α} {q : Parser σ} (h : Performs items p (.ok a q))
    (hitems : items ≠ []) (rest : List Item) : LeadsOn ⟨items ++ rest, p⟩ ⟨rest, q⟩ := by
  rcases Relation.reflTransGen_iff_eq_or_transGen.1 (h rest) with hsame | hleads
  · have hagenda : rest = items ++ rest := congrArg Config.agenda hsame
    exact absurd (List.self_eq_append_left.1 hagenda) hitems
  · exact hleads

theorem Config.Comes.of_error {d : Diagnostic} {q : Parser σ}
    {failure : EStateM.Result Diagnostic (Parser σ) Unit}
    (h : Config.Comes ⟨items ++ rest, p⟩ result) (hfails : Performs items p failure)
    (hfailure : failure = .error d q) : result = .error d q := by
  subst hfailure
  obtain ⟨act, left, r, hleads, hrun⟩ := hfails rest
  exact (h.of_leads hleads).eq_of_ends (.failed hrun)

end Comes

/-! ## Calls -/

/-- A call that only looks at the parser has nothing to do. -/
def Call.items : Call → List Item
  | checkCurrent _ | checkPeek _ | sourceLine _ => []
  | advance => [.act .advance]
  | expect kind => [.look (.expect kind)]
  | declare name => [.act (.declare name)]
  | checkLabels => [.act .checkLabels]
  | block terminator => [.look (.block terminator)]
  | program => programItems
  | statement => [.look .statement]
  | newlines => newlineItems
  | comparison => comparisonItems
  | expression => expressionItems
  | term => termItems
  | unary => unaryItems
  | primary => [.look .operand]

theorem performs_call (call : Call) (p : Parser σ) :
    Performs call.items p ((call.rule : Rule σ Answer) p) := by
  cases call with
  | checkCurrent | checkPeek | sourceLine => exact .nil _ p
  | advance => exact .advance fun q _ => .nil _ q
  | expect kind =>
    refine .look ?_
    rw [List.append_nil]
    exact .expect fun q _ => .nil _ q
  | declare name => exact (performs_act (.declare name) p).then_pure _
  | checkLabels => exact (performs_act .checkLabels p).then_pure _
  | block terminator => exact (performs_block terminator p).then_pure _
  | program => exact (performs_program p).then_pure _
  | statement =>
    exact (performs_statement fun terminator q _ => performs_block terminator q).then_pure _
  | newlines => exact (performs_newlines p).then_pure _
  | comparison => exact (performs_comparison p).then_pure _
  | expression => exact (performs_expression p).then_pure _
  | term => exact (performs_term p).then_pure _
  | unary => exact (performs_unary p).then_pure _
  | primary => exact (performs_operand p).then_pure _

end TeenyLang.Parser
