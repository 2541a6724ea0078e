import TeenyLang.Parser.State

set_option autoImplicit false

/-!
# Progress of rules

A rule shrinks the parser if no success leaves it larger, and it consumes if every success
leaves it smaller. Both pass through sequences of rules, and `whileCurrent` is the loop that
they make total: its body may be any rule that leaves the parser smaller whenever the test
held before it.
-/
namespace TeenyLang.Parser

variable {σ α β : Type}

/-- A sequence that succeeds is a success of its first rule and then one of the second. -/
theorem bind_eq_ok {rule : Rule σ α} {next : α → Rule σ β} {p p' : Parser σ} {b : β}
    (h : (rule >>= next) p = .ok b p') :
    ∃ a q, rule p = .ok a q ∧ next a q = .ok b p' := by
  change EStateM.bind rule next p = _ at h
  unfold EStateM.bind at h
  split at h
  · next a q ran => exact ⟨a, q, ran, h⟩
  · cases h

variable [TokenSupply σ]

/-- No success of the rule leaves the parser larger. -/
def Shrinks (rule : Rule σ α) : Prop :=
  ∀ p a p', rule p = .ok a p' → p'.size ≤ p.size

/-- Every success of the rule leaves the parser smaller. -/
def Consumes (rule : Rule σ α) : Prop :=
  ∀ p a p', rule p = .ok a p' → p'.size < p.size

theorem Consumes.shrinks {rule : Rule σ α} (h : Consumes rule) : Shrinks rule :=
  fun p a p' ran => Nat.le_of_lt (h p a p' ran)

theorem Shrinks.pure (a : α) : Shrinks (pure a : Rule σ α) := by
  intro p b p' ran
  cases ran
  exact Nat.le_refl _

theorem Shrinks.bind {rule : Rule σ α} {next : α → Rule σ β} (first : Shrinks rule)
    (second : ∀ a, Shrinks (next a)) : Shrinks (rule >>= next) := by
  intro p b p' ran
  obtain ⟨a, q, ranFirst, ranSecond⟩ := bind_eq_ok ran
  exact Nat.le_trans (second a q b p' ranSecond) (first p a q ranFirst)

theorem Consumes.bind_left {rule : Rule σ α} {next : α → Rule σ β} (first : Consumes rule)
    (second : ∀ a, Shrinks (next a)) : Consumes (rule >>= next) := by
  intro p b p' ran
  obtain ⟨a, q, ranFirst, ranSecond⟩ := bind_eq_ok ran
  exact Nat.lt_of_le_of_lt (second a q b p' ranSecond) (first p a q ranFirst)

theorem Consumes.bind_right {rule : Rule σ α} {next : α → Rule σ β} (first : Shrinks rule)
    (second : ∀ a, Consumes (next a)) : Consumes (rule >>= next) := by
  intro p b p' ran
  obtain ⟨a, q, ranFirst, ranSecond⟩ := bind_eq_ok ran
  exact Nat.lt_of_lt_of_le (second a q b p' ranSecond) (first p a q ranFirst)

theorem Consumes.throw (diagnostic : Diagnostic) :
    Consumes (throw diagnostic : Rule σ α) := by
  intro p a p' ran
  cases ran

theorem Shrinks.get : Shrinks (get : Rule σ (Parser σ)) := by
  intro p a p' ran
  cases ran
  exact Nat.le_refl _

/-- A rule that changes neither the supply nor the tokens ahead keeps the size. -/
theorem Shrinks.modify {change : Parser σ → Parser σ}
    (keeps : ∀ p, (change p).size = p.size) : Shrinks (modify change : Rule σ Unit) := by
  intro p a p' ran
  cases ran
  exact Nat.le_of_eq (keeps p)

theorem shrinks_note (message : String) : Shrinks (note message : Rule σ Unit) :=
  .modify fun _ => rfl

theorem shrinks_emit (text : String) : Shrinks (emit text : Rule σ Unit) :=
  .modify fun _ => rfl

theorem shrinks_emitLine (text : String) : Shrinks (emitLine text : Rule σ Unit) :=
  .modify fun _ => rfl

theorem shrinks_emitDeclaration (text : String) :
    Shrinks (emitDeclaration text : Rule σ Unit) :=
  .modify fun _ => rfl

theorem consumes_failAt (token : Token) (cause : Cause) :
    Consumes (failAt token cause : Rule σ α) :=
  .bind_right .get fun _ => .throw _

/-- Moving on makes the parser smaller, unless it is at the end of the input. -/
theorem advance_size {p p' : Parser σ} {token : Token} (ran : advance p = .ok token p') :
    p'.size ≤ p.size ∧ (p.current.kind ≠ .endOfInput → p'.size < p.size) := by
  unfold advance at ran
  split at ran
  · next pulled supply pull =>
    cases ran
    have le := TokenSupply.pull_le pull
    have lt := TokenSupply.pull_lt pull
    simp only [size, pending]
    -- a pull that brings a token takes three units off the supply
    by_cases last : pulled.kind = .endOfInput
    · simp only [last, if_true]
      refine ⟨by omega, fun more => ?_⟩
      rw [if_neg more]
      omega
    · have := lt last
      simp only [last, if_false]
      exact ⟨by split <;> omega, fun _ => by split <;> omega⟩
  · cases ran

theorem shrinks_advance : Shrinks (advance : Rule σ Token) :=
  fun _ _ _ ran => (advance_size ran).1

theorem advance_size_lt {p p' : Parser σ} {token : Token} (ran : advance p = .ok token p')
    (more : p.current.kind ≠ .endOfInput) : p'.size < p.size :=
  (advance_size ran).2 more

theorem shrinks_expect (kind : Kind) : Shrinks (expect kind : Rule σ Token) := by
  refine .bind .get fun p => ?_
  split
  · exact shrinks_advance
  · exact (consumes_failAt _ _).shrinks

theorem consumes_expect {kind : Kind} (more : kind ≠ .endOfInput) :
    Consumes (expect kind : Rule σ Token) := by
  intro p token p' ran
  obtain ⟨q, q', got, ran⟩ := bind_eq_ok ran
  cases got
  split at ran
  · next here => exact advance_size_lt ran (here ▸ more)
  · exact consumes_failAt _ _ _ _ _ ran

def whileCurrent (test : Kind → Bool) (body : Rule σ Unit)
    (progress : ∀ p p', test p.current.kind = true → body p = .ok () p' → p'.size < p.size) :
    Rule σ Unit := fun p =>
  if _here : test p.current.kind = true then
    match _ran : body p with
    | .ok () p' => whileCurrent test body progress p'
    | .error diagnostic p' => .error diagnostic p'
  else
    .ok () p
termination_by p => p.size
decreasing_by exact progress _ _ _here _ran

theorem shrinks_whileCurrent (test : Kind → Bool) (body : Rule σ Unit)
    (progress : ∀ p p', test p.current.kind = true → body p = .ok () p' → p'.size < p.size) :
    Shrinks (whileCurrent test body progress) := by
  intro p
  induction p using WellFounded.induction (measure fun q : Parser σ => q.size).wf with
  | _ p ih =>
    intro a p' ran
    rw [whileCurrent] at ran
    split at ran
    · next here =>
      split at ran
      · next q ranBody =>
        have smaller := progress p q here ranBody
        exact Nat.le_trans (ih q smaller a p' ran) (Nat.le_of_lt smaller)
      · cases ran
    · cases ran
      exact Nat.le_refl _

end TeenyLang.Parser
