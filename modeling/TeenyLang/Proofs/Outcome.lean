import TeenyLang.Proofs.Lookahead

set_option autoImplicit false

/-!
# Outcomes of rules

`Ends result a expected l` says what a rule has come to: if the record is expected to become
`r`, the rule has ended well with the value `a`, the record `r` and the tokens of `l` ahead; if
a diagnostic is expected, the rule has ended with it. It passes through sequences of rules and
through the loop `whileCurrent`.
-/
namespace TeenyLang

open Grammar

namespace Record

@[simp] theorem run_nil (r : Record) (code : String) : r.run [] code = .ok (r.write code) :=
  rfl

@[simp] theorem write_empty (r : Record) : r.write "" = r := by
  simp [write, Target.Listing.code]

theorem run_singleton (r : Record) (u : Use) : r.run [u] "" = r.use u := by
  have hwrite : write "" = id := funext write_empty
  change ((r.use u).bind Except.ok).map (write "") = r.use u
  rw [hwrite]
  cases r.use u <;> rfl

end Record

namespace Parser

variable {σ α β : Type}

def Ends (result : EStateM.Result Diagnostic (Parser σ) α) (a : α)
    (expected : Except Diagnostic Record) (l : Lookahead σ) : Prop :=
  match expected with
  | .ok r => ∃ p, result = .ok a p ∧ p.lookahead = l ∧ p.record = r
  | .error d => ∃ p, result = .error d p

theorem Ends.of_ok {result : EStateM.Result Diagnostic (Parser σ) α} {a : α} {p : Parser σ}
    (h : result = .ok a p) : Ends result a (.ok p.record) p.lookahead :=
  ⟨p, h, rfl, rfl⟩

/-- A sequence goes on from the record that its first rule is expected to leave. -/
theorem Ends.seq {rule : Rule σ α} {next : α → Rule σ β} {p : Parser σ} {a : α} {b : β}
    {expected : Except Diagnostic Record} {further : Record → Except Diagnostic Record}
    {l m : Lookahead σ} (first : Ends (rule p) a expected m)
    (second : ∀ q : Parser σ, q.lookahead = m → expected = .ok q.record →
      Ends (next a q) b (further q.record) l) :
    Ends ((rule >>= next) p) b (expected.bind further) l := by
  change Ends (EStateM.bind rule next p) b _ l
  cases expected with
  | error e =>
    obtain ⟨q, hq⟩ := first
    exact ⟨q, by simp only [EStateM.bind, hq]⟩
  | ok r =>
    obtain ⟨q, hq, hl, rfl⟩ := first
    simp only [EStateM.bind, hq]
    exact second q hl rfl

theorem Ends.bind {rule : Rule σ α} {next : α → Rule σ β} {p : Parser σ} {a : α} {b : β}
    {us vs : List Use} {c d : String} {l m : Lookahead σ}
    (first : Ends (rule p) a (p.record.run us c) m)
    (second : ∀ q : Parser σ, q.lookahead = m → q.precision = p.precision →
      Ends (next a q) b (q.record.run vs d) l) :
    Ends ((rule >>= next) p) b (p.record.run (us ++ vs) (c ++ d)) l := by
  rw [Record.run_append]
  exact first.seq fun q hq hrun => second q hq (Record.run_precision hrun)

/-- A sequence whose first rule writes nothing and uses no name. -/
theorem Ends.bind_silent {rule : Rule σ α} {next : α → Rule σ β} {p : Parser σ} {a : α} {b : β}
    {vs : List Use} {d : String} {l m : Lookahead σ}
    (first : Ends (rule p) a (.ok p.record) m)
    (second : ∀ q : Parser σ, q.lookahead = m → q.precision = p.precision →
      Ends (next a q) b (q.record.run vs d) l) :
    Ends ((rule >>= next) p) b (p.record.run vs d) l := by
  have hsilent : Ends (rule p) a (p.record.run [] "") m := by simpa using first
  simpa using hsilent.bind second

/-- A sequence whose first rule only writes. -/
theorem Ends.bind_write {rule : Rule σ α} {next : α → Rule σ β} {p : Parser σ} {a : α} {b : β}
    {vs : List Use} {c d : String} {l m : Lookahead σ}
    (first : Ends (rule p) a (.ok (p.record.write c)) m)
    (second : ∀ q : Parser σ, q.lookahead = m → q.precision = p.precision →
      Ends (next a q) b (q.record.run vs d) l) :
    Ends ((rule >>= next) p) b (p.record.run vs (c ++ d)) l := by
  have hwrites : Ends (rule p) a (p.record.run [] c) m := first
  exact hwrites.bind second

/-- A sequence whose second rule writes nothing and uses no name. -/
theorem Ends.bind_then_silent {rule : Rule σ α} {next : α → Rule σ β} {p : Parser σ} {a : α}
    {b : β} {us : List Use} {c : String} {l m : Lookahead σ}
    (first : Ends (rule p) a (p.record.run us c) m)
    (second : ∀ q : Parser σ, q.lookahead = m → q.precision = p.precision →
      Ends (next a q) b (.ok q.record) l) :
    Ends ((rule >>= next) p) b (p.record.run us c) l := by
  have hsilent : ∀ q : Parser σ, q.lookahead = m → q.precision = p.precision →
      Ends (next a q) b (q.record.run [] "") l := by
    simpa using second
  simpa using first.bind hsilent

/-- A sequence whose second rule only writes. -/
theorem Ends.bind_then_write {rule : Rule σ α} {next : α → Rule σ β} {p : Parser σ} {a : α}
    {b : β} {us : List Use} {c d : String} {l m : Lookahead σ}
    (first : Ends (rule p) a (p.record.run us c) m)
    (second : ∀ q : Parser σ, q.lookahead = m → q.precision = p.precision →
      Ends (next a q) b (.ok (q.record.write d)) l) :
    Ends ((rule >>= next) p) b (p.record.run us (c ++ d)) l := by
  have hwrites : ∀ q : Parser σ, q.lookahead = m → q.precision = p.precision →
      Ends (next a q) b (q.record.run [] d) l :=
    second
  simpa using first.bind hwrites

theorem ends_pure (a : α) (p : Parser σ) :
    Ends ((pure a : Rule σ α) p) a (.ok p.record) p.lookahead :=
  .of_ok rfl

theorem ends_note (message : String) (p : Parser σ) :
    Ends ((note message : Rule σ Unit) p) () (.ok p.record) p.lookahead :=
  ⟨_, rfl, rfl, rfl⟩

theorem ends_emit (code : String) (p : Parser σ) :
    Ends ((emit code : Rule σ Unit) p) () (.ok (p.record.write code)) p.lookahead :=
  ⟨_, rfl, rfl, rfl⟩

theorem ends_emitLine (code : String) (p : Parser σ) :
    Ends ((emitLine code : Rule σ Unit) p) () (.ok (p.record.write (line code))) p.lookahead := by
  refine ⟨_, rfl, rfl, ?_⟩
  simp [record, Record.write, Target.Listing.code, Target.Listing.codeLine, line,
    String.append_assoc]

theorem ends_failAt (token : Token) (cause : Cause) (p : Parser σ) (a : α) (l : Lookahead σ) :
    Ends ((failAt token cause : Rule σ α) p) a (.error (p.record.fault token cause)) l :=
  ⟨p, rfl⟩

/-- A rule that looks at the parser first is the rule for what it sees. -/
theorem Ends.get {next : Parser σ → Rule σ α} {p : Parser σ} {a : α}
    {expected : Except Diagnostic Record} {l : Lookahead σ} (h : Ends (next p p) a expected l) :
    Ends ((get >>= next) p) a expected l :=
  h

theorem Ends.discard {rule : Rule σ α} {p : Parser σ} {a : α}
    {expected : Except Diagnostic Record} {l : Lookahead σ} (h : Ends (rule p) a expected l) :
    Ends ((discard rule : Rule σ Unit) p) () expected l := by
  change Ends (EStateM.map (fun _ => ()) rule p) () expected l
  cases expected with
  | error d =>
    obtain ⟨q, hq⟩ := h
    exact ⟨q, by simp only [EStateM.map, hq]⟩
  | ok r =>
    obtain ⟨q, hq, hl, hr⟩ := h
    exact ⟨q, by simp only [EStateM.map, hq], hl, hr⟩

variable [TokenSupply σ]

theorem ends_advance {p : Parser σ} {t : Token} {m : Lookahead σ}
    (h : Passes p.lookahead [t] m) : Ends (advance p) t (.ok p.record) m :=
  advance_of_passes h

theorem ends_expect {p : Parser σ} {kind : Kind} (t : Leaf [kind]) {m : Lookahead σ}
    (h : Passes p.lookahead [t.1] m) : Ends (expect kind p) t.1 (.ok p.record) m := by
  have hcurrent : p.current = t.1 := h.head_eq
  have hkind : p.current.kind = kind := by
    rw [hcurrent]
    exact List.mem_singleton.1 t.2
  refine Ends.get ?_
  simp only [hkind, ↓reduceIte]
  exact ends_advance h

/-! ## Loops -/

theorem whileCurrent_of_false {test : Kind → Bool} {body : Rule σ Unit}
    {progress : ∀ p p', test p.current.kind = true → body p = .ok () p' → p'.size < p.size}
    {p : Parser σ} (h : test p.current.kind = false) :
    whileCurrent test body progress p = .ok () p := by
  rw [whileCurrent]
  simp [h]

theorem whileCurrent_of_true {test : Kind → Bool} {body : Rule σ Unit}
    {progress : ∀ p p', test p.current.kind = true → body p = .ok () p' → p'.size < p.size}
    {p : Parser σ} (h : test p.current.kind = true) :
    whileCurrent test body progress p = (body >>= fun _ => whileCurrent test body progress) p := by
  rw [whileCurrent]
  simp only [h, ↓reduceDIte]
  change _ = EStateM.bind body (fun _ => whileCurrent test body progress) p
  unfold EStateM.bind
  split <;> simp_all

/-- A loop over a list of items, each of which begins with a token that passes the test and is
read by the body up to a token that `follows` allows. -/
theorem ends_whileCurrent {ι : Type} {test : Kind → Bool} {body : Rule σ Unit}
    {progress : ∀ p p', test p.current.kind = true → body p = .ok () p' → p'.size < p.size}
    {uses : ι → List Use} {code : ι → String} {precision : Int} (tokens : ι → List Token)
    (follows : Kind → Prop) (items : List ι)
    (hbody : ∀ i ∈ items, ∀ (p : Parser σ) (l : Lookahead σ), p.precision = precision →
      Passes p.lookahead (tokens i) l → follows l.current.kind →
        Ends (body p) () (p.record.run (uses i) (code i)) l)
    (hhead : ∀ i ∈ items, ∃ t ts, tokens i = t :: ts ∧ test t.kind = true ∧ follows t.kind)
    {p : Parser σ} (hprecision : p.precision = precision) {l : Lookahead σ}
    (h : Passes p.lookahead (items.flatMap tokens) l) (hstop : test l.current.kind = false)
    (hfollows : follows l.current.kind) :
    Ends (whileCurrent test body progress p) ()
      (p.record.run (items.flatMap uses) (concatMap code items)) l := by
  induction items generalizing p with
  | nil =>
    cases Passes.nil_iff.1 h
    have hstop : test p.current.kind = false := hstop
    exact ⟨p, whileCurrent_of_false hstop, rfl, by simp [concatMap]⟩
  | cons i items ih =>
    rw [List.flatMap_cons] at h
    obtain ⟨m, hi, hrest⟩ := h.split
    obtain ⟨t, ts, htokens, htest, _⟩ := hhead i (by simp)
    rw [htokens] at hi
    have hcurrent : test p.current.kind = true := by
      have : p.current = t := hi.head_eq
      rw [this, htest]
    -- what comes after the item is the next item or the end of the list
    have hnext : follows m.current.kind := by
      cases items with
      | nil =>
        cases Passes.nil_iff.1 hrest
        exact hfollows
      | cons j items =>
        obtain ⟨u, us, hj, _, hu⟩ := hhead j (by simp)
        rw [List.flatMap_cons, hj] at hrest
        rw [hrest.head_eq]
        exact hu
    rw [whileCurrent_of_true hcurrent]
    rw [← htokens] at hi
    refine Ends.bind (hbody i (by simp) p m hprecision hi hnext) fun q hq hsame => ?_
    subst hq
    exact ih (fun j hj => hbody j (by simp [hj])) (fun j hj => hhead j (by simp [hj]))
      (hsame.trans hprecision) hrest

/-- A loop that ends well stands at a token that fails its test. -/
theorem whileCurrent_stops {test : Kind → Bool} {body : Rule σ Unit}
    {progress : ∀ p p', test p.current.kind = true → body p = .ok () p' → p'.size < p.size}
    {p p' : Parser σ} {a : Unit} (h : whileCurrent test body progress p = .ok a p') :
    test p'.current.kind = false := by
  induction p using WellFounded.induction (measure fun q : Parser σ => q.size).wf with
  | _ p ih =>
    cases htest : test p.current.kind with
    | false =>
      rw [whileCurrent_of_false htest] at h
      cases h
      exact htest
    | true =>
      rw [whileCurrent_of_true htest] at h
      obtain ⟨_, q, hq, hloop⟩ := bind_eq_ok h
      exact ih q (progress p q htest hq) hloop

end Parser

end TeenyLang
