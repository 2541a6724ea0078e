import TeenyLang.Proofs.PassedTexts

set_option autoImplicit false

/-!
# No foresight

A parser has pulled one token more than its current one, but no rule looks at it. What a rule comes
to is settled by what the parser shows at first, by the tokens that the rule moves over and by the
token it then stands at (`Performs.settled`): whatever comes after that token, the rule ends in the
same way.
-/
namespace TeenyLang.Parser

variable {σ : Type}

/-- The second result is the first again, with the tokens of `m` ahead after a success. -/
def Alike (m : Lookahead σ) : EStateM.Result Diagnostic (Parser σ) Unit →
    EStateM.Result Diagnostic (Parser σ) Unit → Prop
  | .ok a q, result => ∃ q', result = .ok a q' ∧ q'.face = q.face ∧ q'.lookahead = m
  | .error d _, result => ∃ q', result = .error d q'

theorem onto_of_face {p q : Parser σ} (h : p.face = q.face) : p.onto q.lookahead q.count = q :=
  congrArg (fun s : Parser Unit => s.onto q.lookahead q.count) h

theorem face_onto {p : Parser σ} {l : Lookahead σ} (h : l.current = p.current) (count : Nat) :
    (p.onto l count).face = p.face := by
  change { p.face with current := l.current } = p.face
  rw [h]
  rfl

variable [TokenSupply σ]

/-- Two parsers that come over the same tokens to the same token stand at the same token. -/
theorem current_of_passes {l m l' m' : Lookahead σ} {ts : List Token} (h : Passes l ts m)
    (h' : Passes l' ts m') (hend : m'.current = m.current) : l'.current = l.current := by
  cases ts with
  | nil =>
    rw [Passes.nil_iff.1 h, Passes.nil_iff.1 h']
    exact hend
  | cons t ts => rw [h.head_eq, h'.head_eq]

/-- The point of a run from `p` is settled when the run is there: a run from every parser that shows
the same as `p` comes there, if it has the same tokens up to the current one. -/
def Settles (items : List Item) (p : Parser σ) (c : Config σ) : Prop :=
  ∃ ts, Passes p.lookahead ts c.parser.lookahead ∧
    ∀ (p' : Parser σ) m, p'.face = p.face → Passes p'.lookahead ts m →
      m.current = c.parser.current →
        ∃ q', Leads ⟨items, p'⟩ ⟨c.agenda, q'⟩ ∧ q'.face = c.parser.face ∧ q'.lookahead = m

variable {items : List Item} {p : Parser σ}

theorem Settles.advance {agenda : List Item} {q r : Parser σ}
    (h : Settles items p ⟨.act .advance :: agenda, q⟩) (hrun : Act.advance.run q = .ok () r) :
    Settles items p ⟨agenda, r⟩ := by
  obtain ⟨ts, hpass, hsame⟩ := h
  obtain ⟨t, s, hpull, rfl⟩ := Act.advance_eq_ok hrun
  have hstep : Passes q.lookahead [q.current] (q.shifted t s).lookahead := .cons hpull (.nil _)
  refine ⟨ts ++ [q.current], hpass.append hstep, fun p' m hface hm hcurrent => ?_⟩
  obtain ⟨n, hn, hm⟩ := hm.split
  obtain ⟨q', hleads, hface', rfl⟩ := hsame p' n hface hn hm.head_eq
  obtain ⟨_, u, s', hpull', hrest⟩ := Passes.cons_iff.1 hm
  obtain rfl := Passes.nil_iff.1 hrest
  refine ⟨q'.shifted u s', hleads.trans (leads_act (Act.advance_of_pull hpull') agenda), ?_, rfl⟩
  change { q'.face with current := q'.peek } = { q.face with current := q.peek }
  rw [hface', show q'.peek = q.peek from hcurrent]

theorem Settles.moves {c c' : Config σ} (h : c.Moves c') (hc : Settles items p c) :
    Settles items p c' := by
  cases h with
  | @act act agenda q r hrun =>
    by_cases hact : act = .advance
    · subst hact
      exact hc.advance hrun
    obtain ⟨ts, hpass, hsame⟩ := hc
    have hstill : q.lookahead = r.lookahead := (Act.still hact).lookahead_eq hrun
    refine ⟨ts, hstill ▸ hpass, fun p' m hface hm hcurrent => ?_⟩
    have hq : q.current = r.current := congrArg Lookahead.current hstill
    obtain ⟨q', hleads, hface', rfl⟩ := hsame p' m hface hm (hcurrent.trans hq.symm)
    have hrun' : act.run q' = .ok () (r.onto q'.lookahead q'.count) := by
      rw [← onto_of_face hface'.symm, act.run_onto hact, hrun]
      rfl
    exact ⟨_, hleads.trans (leads_act hrun' agenda), face_onto hcurrent _, rfl⟩
  | look spot agenda q =>
    obtain ⟨ts, hpass, hsame⟩ := hc
    refine ⟨ts, hpass, fun p' m hface hm hcurrent => ?_⟩
    obtain ⟨q', hleads, hface', hq'⟩ := hsame p' m hface hm hcurrent
    have hplan : spot.plan q' = spot.plan q := by
      rw [← spot.plan_face q', ← spot.plan_face q, hface']
    exact ⟨q', hplan ▸ hleads.trans (leads_look spot q' agenda), hface', hq'⟩

theorem Leads.settles {c : Config σ} (h : Leads ⟨items, p⟩ c) : Settles items p c :=
  h.keeps _ (fun _ _ => Settles.moves)
    ⟨[], .nil _, fun p' _ hface hm _ => ⟨p', .refl, hface, Passes.nil_iff.1 hm⟩⟩

/-- Unless a text is no token, what the rule comes to from `p` is settled when it stands at its last
token. -/
theorem Performs.settled [FailsLexically σ] {rule : Rule σ Unit}
    (h : ∀ p, Performs items p (rule p))
    (hfaults : ∀ d q, rule p = .error d q → d.cause.stage ≠ some .lexical) :
    ∃ ts, Passes p.lookahead ts (ending (rule p)).lookahead ∧
      ∀ (p' : Parser σ) m, p'.face = p.face → Passes p'.lookahead ts m →
        m.current = (ending (rule p)).current → Alike m (rule p) (rule p') := by
  obtain ⟨c, hleads, hends⟩ := (h p).ends
  obtain ⟨ts, hpass, hsame⟩ := hleads.settles
  generalize hresult : rule p = result at hends hfaults
  cases hends with
  | done _ q =>
    refine ⟨ts, hpass, fun p' m hface hm hcurrent => ?_⟩
    obtain ⟨q', hleads', hface', hq'⟩ := hsame p' m hface hm hcurrent
    exact ⟨q', (h p').eq_of_leads hleads' (.done () q'), hface', hq'⟩
  | @failed act rest q r d hfails =>
    have hact : act ≠ .advance := by
      rintro rfl
      obtain ⟨s, hpull⟩ := advance_eq_error (discard_eq_error hfails)
      exact hfaults d r rfl (FailsLexically.stage_eq hpull)
    have hstill : r.lookahead = q.lookahead := by
      have hlook := act.lookahead_ending hact q
      rwa [hfails] at hlook
    refine ⟨ts, hstill ▸ hpass, fun p' m hface hm hcurrent => ?_⟩
    have hr : r.current = q.current := congrArg Lookahead.current hstill
    obtain ⟨q', hleads', hface', -⟩ := hsame p' m hface hm (hcurrent.trans hr)
    have hfails' : act.run q' = .error d (r.onto q'.lookahead q'.count) := by
      rw [← onto_of_face hface'.symm, act.run_onto hact, hfails]
      rfl
    exact ⟨_, (h p').eq_of_leads hleads' (.failed hfails')⟩

end TeenyLang.Parser
