import TeenyLang.Proofs.AgendaRuns

set_option autoImplicit false

/-!
# The same rules on two supplies

An agenda is the same whatever the tokens come from, so a rule can be followed on two supplies at
once. What a moving on by one token keeps of the tokens ahead, every rule keeps (`Performs.keeps`).
And if two supplies give the same tokens up to a point at which one of them fails, the two runs are
the same up to that point (`Performs.matches`).
-/
namespace TeenyLang.Parser

variable {σ τ α β : Type}

def bare (p : Parser σ) : Parser Unit :=
  { p with supply := () }

theorem face_of_bare {p : Parser σ} {q : Parser τ} (h : p.bare = q.bare) : p.face = q.face :=
  congrArg face h

theorem bare_onto {p : Parser σ} {q : Parser τ} (h : p.bare = q.bare) (r : Parser σ) :
    (r.onto p.lookahead p.count).bare = (r.onto q.lookahead q.count).bare :=
  congrArg (fun s : Parser Unit => r.onto s.lookahead s.count) h

theorem onto_of_bare {p : Parser σ} {q : Parser τ} (h : p.bare = q.bare) :
    p.onto q.lookahead q.count = q :=
  congrArg (fun s : Parser Unit => s.onto q.lookahead q.count) h

theorem ending_discard (rule : Rule σ α) (p : Parser σ) :
    ending ((discard rule : Rule σ Unit) p) = ending (rule p) := by
  change ending (EStateM.map _ rule p) = _
  unfold EStateM.map
  cases rule p <;> rfl

variable [TokenSupply σ] [TokenSupply τ]

/-! ## What every rule keeps -/

/-- A rule keeps what holds of the tokens ahead, also when it fails. -/
def Keeps (holds : Lookahead σ → Prop) (rule : Rule σ α) : Prop :=
  ∀ p, holds p.lookahead → holds (ending (rule p)).lookahead

section Keeps

variable {holds : Lookahead σ → Prop}

omit [TokenSupply σ] in
theorem holds_bind {rule : Rule σ α} {next : α → Rule σ β} {p : Parser σ}
    (first : holds (ending (rule p)).lookahead)
    (second : ∀ a q, rule p = .ok a q → holds q.lookahead →
      holds (ending (next a q)).lookahead) :
    holds (ending ((rule >>= next) p)).lookahead := by
  change holds (ending (EStateM.bind rule next p)).lookahead
  unfold EStateM.bind
  cases hrule : rule p with
  | ok a q =>
    rw [hrule] at first
    exact second a q hrule first
  | error d q =>
    rw [hrule] at first
    exact first

theorem keeps_act (hadvance : Keeps holds (advance : Rule σ Token)) (act : Act) :
    Keeps holds (act.run : Rule σ Unit) := by
  intro p hp
  by_cases hact : act = .advance
  · subst hact
    change holds (ending ((discard advance : Rule σ Unit) p)).lookahead
    rw [ending_discard]
    exact hadvance p hp
  · rw [act.lookahead_ending hact]
    exact hp

theorem Leads.keeps_lookahead (hadvance : Keeps holds (advance : Rule σ Token)) {c c' : Config σ}
    (h : Leads c c') (hc : holds c.parser.lookahead) : holds c'.parser.lookahead := by
  refine h.keeps (fun c => holds c.parser.lookahead) (fun c c' hmoves hc => ?_) hc
  cases hmoves with
  | @act act _ p _ hrun =>
    have hkept := keeps_act hadvance act p hc
    rw [hrun] at hkept
    exact hkept
  | look => exact hc

theorem Config.Ends.keeps (hadvance : Keeps holds (advance : Rule σ Token)) {c : Config σ}
    {result : EStateM.Result Diagnostic (Parser σ) α} (h : c.Ends result)
    (hc : holds c.parser.lookahead) : holds (ending result).lookahead := by
  cases h with
  | done => exact hc
  | @failed act _ p _ _ hfails =>
    have hkept := keeps_act hadvance act p hc
    rw [hfails] at hkept
    exact hkept

/-- What moving on keeps of the tokens ahead, every rule keeps. -/
theorem Performs.keeps (hadvance : Keeps holds (Parser.advance : Rule σ Token)) {items : List Item}
    {p : Parser σ} {result : EStateM.Result Diagnostic (Parser σ) α} (h : Performs items p result)
    (hp : holds p.lookahead) : holds (ending result).lookahead := by
  obtain ⟨c, hleads, hends⟩ := h.ends
  exact hends.keeps hadvance (hleads.keeps_lookahead hadvance hp)

end Keeps

/-! ## Runs side by side -/

section Matches

def pulled (r : τ) : τ :=
  match TokenSupply.pull r with
  | .ok _ r' => r'
  | .error _ r' => r'

theorem ending_advance_supply (q : Parser τ) : (ending (advance q)).supply = pulled q.supply := by
  unfold advance pulled
  cases TokenSupply.pull q.supply <;> rfl

/-- Two supplies that are tied give the same token and stay tied, or else the first fails with
`fault` and the second is lost from then on. -/
structure Coupling (tied : σ → τ → Prop) (lost : τ → Prop) (fault : Diagnostic) : Prop where
  pull : ∀ {s r}, tied s r →
    (∃ t s' r', TokenSupply.pull s = .ok t s' ∧ TokenSupply.pull r = .ok t r' ∧ tied s' r') ∨
      (∃ s', TokenSupply.pull s = .error fault s') ∧ lost (pulled r)
  stays : ∀ {r}, lost r → lost (pulled r)

variable {tied : σ → τ → Prop} {lost : τ → Prop} {fault : Diagnostic}

/-- Two parsers that differ in their supplies only, and these are tied. -/
def Level (tied : σ → τ → Prop) (p : Parser σ) (q : Parser τ) : Prop :=
  p.bare = q.bare ∧ tied p.supply q.supply

/-- Two rules have ended in the same way on parsers that are level, or else the first has failed
with `fault` and the second is lost. -/
inductive Matches (tied : σ → τ → Prop) (lost : τ → Prop) (fault : Diagnostic) :
    EStateM.Result Diagnostic (Parser σ) α → EStateM.Result Diagnostic (Parser τ) α → Prop
  | ok {p : Parser σ} {q : Parser τ} (a : α) (h : Level tied p q) :
      Matches tied lost fault (.ok a p) (.ok a q)
  | error {p : Parser σ} {q : Parser τ} (d : Diagnostic) (h : Level tied p q) :
      Matches tied lost fault (.error d p) (.error d q)
  | lost {p : Parser σ} {result : EStateM.Result Diagnostic (Parser τ) α}
      (h : lost (ending result).supply) : Matches tied lost fault (.error fault p) result

theorem matches_advance (hcouple : Coupling tied lost fault) {p : Parser σ} {q : Parser τ}
    (h : Level tied p q) :
    Matches tied lost fault (Act.advance.run p) (Act.advance.run q) := by
  obtain ⟨hbare, htied⟩ := h
  rcases hcouple.pull htied with ⟨t, s', r', hs, hr, htied'⟩ | ⟨⟨s', hs⟩, hlost⟩
  · rw [Act.advance_of_pull hs, Act.advance_of_pull hr]
    exact .ok () ⟨congrArg (fun r : Parser Unit => r.shifted t ()) hbare, htied'⟩
  · rw [Act.advance_of_fault hs]
    refine .lost ?_
    change lost (ending ((discard advance : Rule τ Unit) q)).supply
    rw [ending_discard, ending_advance_supply]
    exact hlost

theorem matches_act (hcouple : Coupling tied lost fault) (act : Act) {p : Parser σ} {q : Parser τ}
    (h : Level tied p q) : Matches tied lost fault (act.run p) (act.run q) := by
  by_cases hact : act = .advance
  · subst hact
    exact matches_advance hcouple h
  · have hq : act.run q = resultOnto q.lookahead q.count (act.run p) := by
      rw [← act.run_onto hact, onto_of_bare h.1]
    rw [hq, act.run_eq_onto hact p]
    cases act.run p with
    | ok a r => exact .ok a ⟨bare_onto h.1 r, h.2⟩
    | error d r => exact .error d ⟨bare_onto h.1 r, h.2⟩

/-- As long as the first run goes on, the second does. -/
theorem Leads.follow_level (hcouple : Coupling tied lost fault) {agenda : List Item}
    {p : Parser σ} {q : Parser τ} (hlevel : Level tied p q) {c : Config σ}
    (h : Leads ⟨agenda, p⟩ c) :
    ∃ r, Leads ⟨agenda, q⟩ ⟨c.agenda, r⟩ ∧ Level tied c.parser r := by
  let beside (c : Config σ) (d : Config τ) := d.agenda = c.agenda ∧ Level tied c.parser d.parser
  have hmoves (c c' : Config σ) (d : Config τ) (h : c.Moves c') (hd : beside c d) :
      ∃ d', Leads d d' ∧ beside c' d' := by
    obtain ⟨_, q⟩ := d
    obtain ⟨rfl, hlevel⟩ := hd
    cases h with
    | @act act agenda p p' hrun =>
      have hmatches := matches_act hcouple act hlevel
      generalize hq : act.run q = result at hmatches
      rw [hrun] at hmatches
      cases hmatches with
      | ok _ hnext => exact ⟨⟨agenda, _⟩, leads_act hq agenda, rfl, hnext⟩
    | look spot agenda p =>
      have hplan : spot.plan q = spot.plan p := by
        rw [← spot.plan_face q, ← spot.plan_face p, face_of_bare hlevel.1]
      exact ⟨⟨spot.plan q ++ agenda, q⟩, leads_look spot q agenda, by rw [hplan], hlevel⟩
  obtain ⟨⟨_, r⟩, hleads, rfl, hr⟩ := h.follow beside (d := ⟨agenda, q⟩) hmoves ⟨rfl, hlevel⟩
  exact ⟨r, hleads, hr⟩

/-- Once the second run is lost, it is lost at its end. -/
theorem Performs.stays_lost (hcouple : Coupling tied lost fault) {items rest : List Item}
    {q r : Parser τ} {act : Act} {result : EStateM.Result Diagnostic (Parser τ) Unit}
    (h : Performs items q result) (hleads : Leads ⟨items, q⟩ ⟨.act act :: rest, r⟩)
    (hlost : lost (ending (act.run r)).supply) : lost (ending result).supply := by
  have hadvance : Keeps (fun l : Lookahead τ => lost l.supply)
      (Parser.advance : Rule τ Token) := by
    intro q hq
    change lost (ending (Parser.advance q)).supply
    rw [ending_advance_supply]
    exact hcouple.stays hq
  obtain ⟨e, he, hends⟩ := h.ends
  cases hrun : act.run r with
  | ok a r' =>
    rw [hrun] at hlost
    have hstep : Leads ⟨items, q⟩ ⟨rest, r'⟩ := hleads.trans (leads_act hrun rest)
    have hafter : Leads ⟨rest, r'⟩ e := hstep.toEnd he hends.next
    exact hends.keeps hadvance (hafter.keeps_lookahead hadvance hlost)
  | error d r' =>
    rw [hrun] at hlost
    rw [h.eq_of_leads hleads (.failed hrun)]
    exact hlost

/-- On tied supplies the same items end in the same way, unless the first supply fails on the
way. -/
theorem Performs.matches (hcouple : Coupling tied lost fault) {items : List Item} {p : Parser σ}
    {q : Parser τ} {result : EStateM.Result Diagnostic (Parser σ) Unit}
    {result' : EStateM.Result Diagnostic (Parser τ) Unit} (h : Performs items p result)
    (h' : Performs items q result') (hlevel : Level tied p q) :
    Matches tied lost fault result result' := by
  obtain ⟨c, hleads, hends⟩ := h.ends
  obtain ⟨r, hleads', hlevel⟩ := hleads.follow_level hcouple hlevel
  cases hends with
  | done _ p' =>
    rw [h'.eq_of_leads hleads' (.done () r)]
    exact .ok () hlevel
  | @failed act rest p' _ d hfails =>
    have hmatches := matches_act hcouple act hlevel
    generalize hr : act.run r = last at hmatches
    rw [hfails] at hmatches
    cases hmatches with
    | error _ hlevel =>
      rw [h'.eq_of_leads hleads' (.failed hr)]
      exact .error d hlevel
    | lost hlost => exact .lost (h'.stays_lost hcouple hleads' (hr ▸ hlost))

end Matches

end TeenyLang.Parser
