import TeenyLang.Parser.Statement
import TeenyLang.Proofs.Outcome

set_option autoImplicit false

/-!
# Blocks by descent

The rule `nested` keeps the open blocks in a list. Here it is taken apart along the nesting: to
read on inside a block is to read the statements up to its end, then its end, and then to read
on in the block around it (`nested_cons`). A statement so is its opening, followed by a whole
block if it opens one (`statement_eq`).
-/
namespace TeenyLang.Parser

variable {σ α β : Type}

/-- Two sequences agree if they begin with the same rule and agree after its success. -/
theorem bind_congr_ok {rule : Rule σ α} {next next' : α → Rule σ β} {p : Parser σ}
    (h : ∀ a q, rule p = .ok a q → next a q = next' a q) :
    (rule >>= next) p = (rule >>= next') p := by
  change EStateM.bind rule next p = EStateM.bind rule next' p
  unfold EStateM.bind
  split
  · next a q hrun => exact h a q hrun
  · rfl

theorem bind_congr_rule {rule rule' : Rule σ α} {next : α → Rule σ β} {p : Parser σ}
    (h : rule p = rule' p) : (rule >>= next) p = (rule' >>= next) p := by
  change EStateM.bind rule next p = EStateM.bind rule' next p
  simp only [EStateM.bind, h]

theorem bind_of_ok {rule : Rule σ α} {next : α → Rule σ β} {p q : Parser σ} {a : α}
    (h : rule p = .ok a q) : (rule >>= next) p = next a q := by
  change EStateM.bind rule next p = _
  simp only [EStateM.bind, h]

theorem bind_of_error {rule : Rule σ α} {next : α → Rule σ β} {p q : Parser σ} {d : Diagnostic}
    (h : rule p = .error d q) : (rule >>= next) p = .error d q := by
  change EStateM.bind rule next p = _
  simp only [EStateM.bind, h]

theorem discard_of_ok {rule : Rule σ α} {p q : Parser σ} {a : α} (h : rule p = .ok a q) :
    (discard rule : Rule σ Unit) p = .ok () q := by
  change EStateM.map _ rule p = _
  simp only [EStateM.map, h]

theorem bind_eq_error {rule : Rule σ α} {next : α → Rule σ β} {p q : Parser σ} {d : Diagnostic}
    (h : (rule >>= next) p = .error d q) :
    rule p = .error d q ∨ ∃ a r, rule p = .ok a r ∧ next a r = .error d q := by
  change EStateM.bind rule next p = _ at h
  unfold EStateM.bind at h
  split at h
  · next a r hfirst => exact .inr ⟨a, r, hfirst, h⟩
  · next hfirst =>
    cases h
    exact .inl hfirst

theorem discard_eq_error {rule : Rule σ α} {p q : Parser σ} {d : Diagnostic}
    (h : (discard rule : Rule σ Unit) p = .error d q) : rule p = .error d q := by
  rcases bind_eq_error h with h | ⟨_, _, _, h⟩
  · exact h
  · cases h

theorem requireMore_of_more {terminator : Kind} {p : Parser σ}
    (h : p.current.kind ≠ .endOfInput) : requireMore terminator p = .ok () p :=
  congrFun (if_neg h) p

variable [TokenSupply σ]

theorem nested_nil : (nested [] : Rule σ Unit) = pure () := by
  funext p
  rw [nested.eq_def]
  rfl

theorem nested_step (terminator : Kind) (outer : List Kind) (p : Parser σ) :
    nested (terminator :: outer) p = (nestedStep terminator outer >>= nested) p := by
  rw [nested.eq_def]
  change _ = EStateM.bind (nestedStep terminator outer) nested p
  dsimp only [EStateM.bind]
  split
  · next blocks q hstep => simp only [hstep]
  · next d q hstep => simp only [hstep]

theorem shrinks_block (terminator : Kind) : Shrinks (block terminator : Rule σ Unit) :=
  shrinks_whileCurrent _ _ _

theorem nestedStep_of_eq {terminator : Kind} {p : Parser σ} (h : p.current.kind = terminator)
    (outer : List Kind) :
    nestedStep terminator outer p = (do closing terminator; return outer) p :=
  congrFun (if_pos h) p

theorem nestedStep_of_ne {terminator : Kind} {p : Parser σ} (h : p.current.kind ≠ terminator)
    (outer : List Kind) :
    nestedStep terminator outer p = (do
      requireMore terminator
      let opened ← opening
      return opened.toList ++ terminator :: outer) p :=
  congrFun (if_neg h) p

theorem nested_cons (terminator : Kind) (outer : List Kind) (p : Parser σ) :
    nested (terminator :: outer) p =
      (do block terminator; closing terminator; nested outer) p := by
  induction p using WellFounded.induction (measure fun q : Parser σ => q.size).wf
    generalizing terminator outer with
  | _ p ih =>
    rw [nested_step]
    by_cases hhere : p.current.kind = terminator
    · have hblock : block terminator p = .ok () p := whileCurrent_of_false (by simp [hhere])
      rw [bind_of_ok hblock, bind_congr_rule (nestedStep_of_eq hhere outer)]
      simp only [bind_assoc, pure_bind]
    · have hblock : block terminator p =
          (do requireMore terminator; statement; block terminator) p := by
        rw [block, whileCurrent_of_true (by simp [hhere]), bind_assoc]
      rw [bind_congr_rule (nestedStep_of_ne hhere outer), bind_congr_rule hblock]
      simp only [bind_assoc, pure_bind, statement]
      refine bind_congr_ok fun _ q hmore => bind_congr_ok fun opened r hopening => ?_
      have hr : r.size < p.size :=
        Nat.lt_of_lt_of_le (consumes_opening q opened r hopening)
          (shrinks_requireMore _ p _ q hmore)
      cases opened with
      | none =>
        change nested (terminator :: outer) r = _
        rw [ih r hr]
        simp [nested_nil]
      | some inner =>
        change nested (inner :: terminator :: outer) r = (nested [inner] >>= _) r
        rw [ih r hr, bind_congr_rule (ih r hr inner [])]
        simp only [bind_assoc, nested_nil, pure_bind]
        refine bind_congr_ok fun _ u hbody => bind_congr_ok fun _ v hclosing => ?_
        have hv : v.size < p.size :=
          Nat.lt_trans (consumes_closing inner u _ v hclosing)
            (Nat.lt_of_le_of_lt (shrinks_block inner r _ u hbody) hr)
        exact ih v hv terminator outer

/-- A statement is its opening, and the block with its end if the opening opens one. -/
theorem statement_eq : (statement : Rule σ Unit) = (do
    match ← opening with
    | none => return
    | some terminator =>
      block terminator
      closing terminator) := by
  funext p
  refine bind_congr_ok fun opened q _ => ?_
  cases opened with
  | none => exact congrFun nested_nil q
  | some terminator =>
    change nested [terminator] q = _
    rw [nested_cons]
    simp [nested_nil]

end TeenyLang.Parser
