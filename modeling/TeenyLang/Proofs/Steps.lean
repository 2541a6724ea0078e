import TeenyLang.Proofs.AgendaRuns

set_option autoImplicit false

/-!
# The steps of a rule

A parser is changed in seven ways only: six kinds of entries in what it has noted down (`Action`)
and the pull of a token. Every act of an agenda is one of these or a refusal (`reaches_act`), and
the tokens that the acts are about are tokens that the parser has seen (`Spot.apt_plan`). So every
rule goes from a parser to another by steps (`Performs.reaches`), also when it ends with a
diagnostic, and what each step keeps is kept by every rule.
-/
namespace TeenyLang

/-- The cause is about the token: it names the token in the way of its wording. -/
def Cause.Names (token : Token) : Cause → Prop
  | unexpectedToken found _ | missingComparison found | invalidStatement found =>
    found = token.description
  | undeclaredVariable name _ | duplicateLabel name _ => name = token.text
  | other .. | illegalCharacter .. | unexpectedCharacter .. | undeclaredLabels .. => False

namespace Parser

variable {σ α β : Type}

inductive Heading where
  | stdio
  | main

def Heading.text : Heading → String
  | stdio => "#include <stdio.h>"
  | main => "int main(void) \x7b"

inductive Action where
  | note (message : String)
  | write (text : String)
  | head (heading : Heading)
  | declare (name : String)
  | label (name : String) (place : Location)
  | jump (name : String) (place : Location)

/-- The parser with the entry made. What is declared already stays as it is. -/
def Action.apply (p : Parser σ) : Action → Parser σ
  | note message => { p with trace := p.trace.push message }
  | write text => { p with listing := p.listing.code text }
  | head heading => { p with listing := p.listing.declare heading.text }
  | declare name =>
    if p.variableNames.contains name then p
    else
      { p with
        trace := p.trace.push s!"Declaring variable '{name}'"
        variableNames := p.variableNames ++ [name]
        listing := p.listing.declare s!"float {Target.name name};" }
  | label name place =>
    match p.labels.lookup name with
    | some _ => p
    | none => { p with labels := p.labels ++ [(name, place)] }
  | jump name place =>
    match p.jumps.lookup name with
    | some _ => p
    | none => { p with jumps := p.jumps ++ [(name, place)] }

/-- An entry leaves alone the tokens ahead, their number and the lines of the source. -/
theorem Action.apply_keeps (action : Action) (p : Parser σ) :
    (action.apply p).lookahead = p.lookahead ∧ (action.apply p).count = p.count ∧
      (action.apply p).lines = p.lines := by
  cases action with
  | note | write | head => exact ⟨rfl, rfl, rfl⟩
  | declare | label | jump =>
    unfold apply
    dsimp only
    split <;> exact ⟨rfl, rfl, rfl⟩

variable [TokenSupply σ]

inductive Step : Parser σ → Parser σ → Prop
  | act (action : Action) (p : Parser σ) : Step p (action.apply p)
  | pull {p : Parser σ} {token : Token} {supply : σ}
      (h : TokenSupply.pull p.supply = .ok token supply) : Step p (p.shifted token supply)

abbrev Steps : Parser σ → Parser σ → Prop :=
  Relation.ReflTransGen Step

/-- A token that becomes the current one when a parser moves on. -/
def Offers (l : Lookahead σ) (t : Token) : Prop :=
  ∃ ts m, Passes l ts m ∧ m.current = t

theorem Steps.passes {p q : Parser σ} (h : Steps p q) :
    ∃ ts, Passes p.lookahead ts q.lookahead := by
  induction h with
  | refl => exact ⟨[], .nil _⟩
  | @tail q r _ hstep ih =>
    obtain ⟨ts, hts⟩ := ih
    cases hstep with
    | act action =>
      rw [(action.apply_keeps q).1]
      exact ⟨ts, hts⟩
    | pull hpull => exact ⟨ts ++ [q.current], hts.append (.cons (l := q.lookahead) hpull (.nil _))⟩

theorem Steps.offers {p q : Parser σ} (h : Steps p q) {t : Token} (ht : Offers q.lookahead t) :
    Offers p.lookahead t := by
  obtain ⟨ts, hts⟩ := h.passes
  obtain ⟨us, m, hus, hm⟩ := ht
  exact ⟨ts ++ us, m, hts.append hus, hm⟩

/-! ## What a rule comes to -/

def unclosed (token : Token) (terminator : Kind) : Diagnostic :=
  ⟨.unexpectedToken token.description (some terminator.description), some token.location, none⟩

/-- The diagnostics with which a rule can end at a parser without a failing pull: one at a token
that `good` allows, one at the end of the input in an open block, or the one for missing labels. -/
inductive Refusal (good : Token → Prop) (q : Parser σ) : Diagnostic → Prop
  | fault {token : Token} {cause : Cause} (hgood : good token) (hnames : cause.Names token) :
      Refusal good q ⟨cause, some token.location, q.sourceLine token.location.line⟩
  | unclosed {token : Token} (hgood : good token) (terminator : Kind) :
      Refusal good q (unclosed token terminator)
  | missing :
      Refusal good q
        (.missingLabels (q.missingJumps.map Prod.fst) (q.missingJumps.map fun jump => some jump.2))

/-- A rule has gone from `p` by steps and has ended well, with a refusal or with a failing pull. -/
inductive Reaches (good : Token → Prop) (p : Parser σ) :
    EStateM.Result Diagnostic (Parser σ) α → Prop
  | ok {a : α} {q : Parser σ} (hsteps : Steps p q) : Reaches good p (.ok a q)
  | refused {d : Diagnostic} {q : Parser σ} (hsteps : Steps p q) (h : Refusal good q d) :
      Reaches good p (.error d q)
  | cut {d : Diagnostic} {r : Parser σ} {supply : σ} (hsteps : Steps p r)
      (h : TokenSupply.pull r.supply = .error d supply) :
      Reaches good p (.error d { r with supply := supply, current := r.peek })

section Reaches

variable {good : Token → Prop}

@[simp] def Act.Apt (good : Token → Prop) : Act → Prop
  | emitDeclaration text => ∃ heading : Heading, text = heading.text
  | declareLabel token => good token
  | failAt token cause => good token ∧ cause.Names token
  | throw d => ∃ token terminator, good token ∧ d = unclosed token terminator
  | _ => True

@[simp] def Item.Apt (good : Token → Prop) : Item → Prop
  | .act entry => entry.Apt good
  | .look _ => True

def Apt (good : Token → Prop) (items : List Item) : Prop :=
  ∀ item ∈ items, item.Apt good

@[simp] theorem apt_nil : Apt good [] :=
  List.forall_mem_nil _

@[simp] theorem apt_cons {item : Item} {items : List Item} :
    Apt good (item :: items) ↔ item.Apt good ∧ Apt good items :=
  List.forall_mem_cons

@[simp] theorem apt_append {xs ys : List Item} :
    Apt good (xs ++ ys) ↔ Apt good xs ∧ Apt good ys :=
  List.forall_mem_append

@[simp] theorem apt_newlineItems : Apt good newlineItems := by
  simp [newlineItems]

@[simp] theorem apt_expressionItems : Apt good expressionItems := by
  simp [expressionItems, termItems, unaryItems]

theorem apt_programItems : Apt good programItems := by
  simpa [programItems] using ⟨⟨.stdio, rfl⟩, .main, rfl⟩

theorem apt_openingItems {token : Token} (h : good token) : Apt good (openingItems token) := by
  unfold openingItems
  split <;> simp [namingItems, headItems, comparisonItems, h, Cause.Names]

omit [TokenSupply σ] in
/-- A plan is about the current token. -/
theorem Spot.apt_plan {p : Parser σ} (h : good p.current) (spot : Spot) :
    Apt good (spot.plan p) := by
  cases spot with
  | statement =>
    rw [Spot.plan, apt_append]
    refine ⟨apt_openingItems h, ?_⟩
    split <;> simp [closingItems]
  | name naming =>
    rw [Spot.plan]
    split
    · cases naming <;> simp [Naming.items, h]
    · simp [h, Cause.Names]
  | operators level =>
    rw [Spot.plan]
    split
    · cases level <;> simp [Precedence.operandItems, expressionItems, termItems, unaryItems]
    · simp
  | block terminator =>
    rw [Spot.plan]
    split
    · simp
    · split
      · simpa using ⟨p.current, h, terminator, rfl⟩
      · simp
  | _ =>
    rw [Spot.plan]
    repeat' split
    all_goals simp [h, Cause.Names]

theorem reaches_action (action : Action) {p : Parser σ}
    {result : EStateM.Result Diagnostic (Parser σ) Unit} (h : result = .ok () (action.apply p)) :
    Reaches good p result := by
  subst h
  exact .ok (.single (.act action p))

/-- An act is an entry, a pull or a refusal. -/
theorem reaches_act {act : Act} (h : act.Apt good) (p : Parser σ) :
    Reaches good p (act.run p) := by
  cases act with
  | advance =>
    cases hpull : TokenSupply.pull p.supply with
    | ok token supply =>
      rw [Act.advance_of_pull hpull]
      exact .ok (.single (.pull hpull))
    | error d supply =>
      rw [Act.advance_of_fault hpull]
      exact .cut .refl hpull
  | note message => exact reaches_action (.note message) rfl
  | emit text => exact reaches_action (.write text) rfl
  | emitLine text =>
    have hline : p.listing.codeLine text = p.listing.code (text ++ "\n") := by
      simp [Target.Listing.codeLine, Target.Listing.code, String.append_assoc]
    refine reaches_action (.write (text ++ "\n")) ?_
    rw [Action.apply, ← hline]
    rfl
  | emitDeclaration text =>
    obtain ⟨heading, rfl⟩ := h
    exact reaches_action (.head heading) rfl
  | declare name =>
    refine reaches_action (.declare name) ?_
    by_cases hknown : p.variableNames.contains name = true
    · rw [Action.apply, if_pos hknown]
      exact declare_of_known hknown
    · rw [Action.apply, if_neg hknown]
      exact declare_of_new hknown
  | declareLabel token =>
    cases hlookup : p.labels.lookup token.text with
    | some first =>
      have hrun : Act.run (.declareLabel token) p = .error _ p := declareLabel_of_some hlookup
      rw [hrun]
      exact .refused .refl (.fault h rfl)
    | none =>
      refine reaches_action (.label token.text token.location) ?_
      rw [Action.apply, hlookup]
      exact declareLabel_of_none hlookup
  | recordJump token => exact reaches_action (.jump token.text token.location) rfl
  | failAt token cause => exact .refused .refl (.fault h.1 h.2)
  | throw d =>
    obtain ⟨token, terminator, hgood, rfl⟩ := h
    exact .refused .refl (.unclosed hgood terminator)
  | checkLabels =>
    by_cases hnone : p.missingJumps = []
    · have hrun : Act.checkLabels.run p = .ok () p := checkLabels_of_none hnone
      rw [hrun]
      exact .ok .refl
    · have hrun : Act.checkLabels.run p = .error _ p := checkLabels_of_some hnone
      rw [hrun]
      exact .refused .refl .missing

structure Reached (good : Token → Prop) (p : Parser σ) (c : Config σ) : Prop where
  steps : Steps p c.parser
  apt : Apt good c.agenda

theorem Reached.moves {p : Parser σ} (hgood : ∀ t, Offers p.lookahead t → good t)
    {c c' : Config σ} (h : c.Moves c') (hc : Reached good p c) : Reached good p c' := by
  obtain ⟨hsteps, hapt⟩ := hc
  cases h with
  | @act act agenda q r hrun =>
    obtain ⟨hact, hrest⟩ := apt_cons.1 hapt
    have hreaches := reaches_act hact q
    rw [hrun] at hreaches
    cases hreaches with
    | ok h => exact ⟨hsteps.trans h, hrest⟩
  | look spot agenda q =>
    have hcurrent : good q.current := hgood _ (hsteps.offers ⟨[], _, .nil _, rfl⟩)
    exact ⟨hsteps, apt_append.2 ⟨spot.apt_plan hcurrent, (apt_cons.1 hapt).2⟩⟩

/-- Every rule goes by steps to its end, if all the tokens ahead are good. -/
theorem Performs.reaches {items : List Item} {p : Parser σ}
    {result : EStateM.Result Diagnostic (Parser σ) α} (h : Performs items p result)
    (hgood : ∀ t, Offers p.lookahead t → good t) (hitems : Apt good items) :
    Reaches good p result := by
  obtain ⟨c, hleads, hends⟩ := h.ends
  obtain ⟨hsteps, hapt⟩ : Reached good p c :=
    hleads.keeps (Reached good p) (fun _ _ => Reached.moves hgood) ⟨.refl, hitems⟩
  cases hends with
  | done => exact .ok hsteps
  | @failed _ _ r _ _ hfails =>
    have hreaches := reaches_act (apt_cons.1 hapt).1 r
    rw [hfails] at hreaches
    cases hreaches with
    | refused hlast hrefusal => exact .refused (hsteps.trans hlast) hrefusal
    | cut hlast hpull => exact .cut (hsteps.trans hlast) hpull

end Reaches

end Parser

end TeenyLang
