import TeenyLang.Parser.Progress
import TeenyLang.Proofs.Record

set_option autoImplicit false

/-!
# Passing over tokens

`Passes l ts m` says that a parser with the tokens ahead of `l` comes to those of `m` when it
moves on over the tokens `ts`, without a failing pull. It is what a rule that succeeds has done
(`advance_eq_ok`) and what a rule needs in order not to fail for lack of tokens.
-/
namespace TeenyLang

structure Lookahead (σ : Type) where
  supply : σ
  current : Token
  peek : Token

def Parser.lookahead {σ : Type} (p : Parser σ) : Lookahead σ :=
  ⟨p.supply, p.current, p.peek⟩

variable {σ : Type} [TokenSupply σ]

inductive Passes : Lookahead σ → List Token → Lookahead σ → Prop where
  | nil (l : Lookahead σ) : Passes l [] l
  | cons {l m : Lookahead σ} {t : Token} {s : σ} {ts : List Token}
      (pull : TokenSupply.pull l.supply = .ok t s) (rest : Passes ⟨s, l.peek, t⟩ ts m) :
      Passes l (l.current :: ts) m

namespace Passes

theorem cons_iff {l n : Lookahead σ} {t : Token} {ts : List Token} :
    Passes l (t :: ts) n ↔
      l.current = t ∧ ∃ u s, TokenSupply.pull l.supply = .ok u s ∧ Passes ⟨s, l.peek, u⟩ ts n := by
  constructor
  · intro h
    cases h with
    | cons pull rest => exact ⟨rfl, _, _, pull, rest⟩
  · rintro ⟨rfl, u, s, pull, rest⟩
    exact .cons pull rest

theorem head_eq {l n : Lookahead σ} {t : Token} {ts : List Token} (h : Passes l (t :: ts) n) :
    l.current = t :=
  (cons_iff.1 h).1

theorem nil_iff {l n : Lookahead σ} : Passes l [] n ↔ l = n := by
  constructor
  · intro h
    cases h
    rfl
  · rintro rfl
    exact .nil l

theorem append {l m n : Lookahead σ} {xs ys : List Token} (hx : Passes l xs m)
    (hy : Passes m ys n) : Passes l (xs ++ ys) n := by
  induction hx with
  | nil l => exact hy
  | cons pull _ ih => exact .cons pull (ih hy)

theorem split {l n : Lookahead σ} {xs ys : List Token} (h : Passes l (xs ++ ys) n) :
    ∃ m, Passes l xs m ∧ Passes m ys n := by
  induction xs generalizing l with
  | nil => exact ⟨l, .nil l, h⟩
  | cons x xs ih =>
    obtain ⟨rfl, t, s, pull, rest⟩ := cons_iff.1 h
    obtain ⟨m, hx, hy⟩ := ih rest
    exact ⟨m, .cons pull hx, hy⟩

/-- The first token alone and then the others. -/
theorem uncons {l n : Lookahead σ} {t : Token} {ts : List Token} (h : Passes l (t :: ts) n) :
    ∃ m, Passes l [t] m ∧ Passes m ts n :=
  @split _ _ _ _ [t] ts h

end Passes

namespace Parser

/-- A success of the rule leaves the tokens ahead as they are. -/
def Still {τ α : Type} (rule : Rule τ α) : Prop :=
  ∀ p a p', rule p = .ok a p' → p.lookahead = p'.lookahead

section Still

variable {τ α β : Type}

theorem Still.lookahead_eq {rule : Rule τ α} (h : Still rule) {p p' : Parser τ} {a : α}
    (hrun : rule p = .ok a p') : p.lookahead = p'.lookahead :=
  h p a p' hrun

theorem Still.current_eq {rule : Rule τ α} (h : Still rule) {p p' : Parser τ} {a : α}
    (hrun : rule p = .ok a p') : p.current = p'.current :=
  congrArg Lookahead.current (h p a p' hrun)

theorem Still.bind {rule : Rule τ α} {next : α → Rule τ β} (first : Still rule)
    (second : ∀ a, Still (next a)) : Still (rule >>= next) := by
  intro p b p' h
  obtain ⟨a, q, hfirst, hsecond⟩ := bind_eq_ok h
  exact (first p a q hfirst).trans (second a q b p' hsecond)

theorem Still.modify {change : Parser τ → Parser τ}
    (h : ∀ p, p.lookahead = (change p).lookahead) : Still (modify change : Rule τ Unit) := by
  intro p a p' hrun
  cases hrun
  exact h p

theorem still_emitLine (code : String) : Still (emitLine code : Rule τ Unit) :=
  .modify fun _ => rfl

end Still

omit [TokenSupply σ] in
theorem discard_eq_ok {α : Type} {rule : Rule σ α} {p p' : Parser σ} {b : Unit}
    (h : (discard rule : Rule σ Unit) p = .ok b p') : ∃ a, rule p = .ok a p' := by
  obtain ⟨a, q, hrule, hrest⟩ := bind_eq_ok h
  cases hrest
  exact ⟨a, hrule⟩

theorem advance_eq_ok {p p' : Parser σ} {t : Token} (h : advance p = .ok t p') :
    t = p.current ∧ Passes p.lookahead [p.current] p'.lookahead ∧ p'.record = p.record := by
  unfold advance at h
  split at h
  · next u s pull =>
    cases h
    exact ⟨rfl, .cons (l := p.lookahead) pull (.nil _), rfl⟩
  · cases h

theorem advance_eq_error {p q : Parser σ} {d : Diagnostic} (h : advance p = .error d q) :
    ∃ s, TokenSupply.pull p.supply = .error d s := by
  unfold advance at h
  split at h
  · cases h
  · next s hpull =>
    cases h
    exact ⟨s, hpull⟩

theorem current_of_advance {p p' : Parser σ} {t : Token} (h : advance p = .ok t p') :
    p'.current = p.peek := by
  obtain ⟨-, hpass, -⟩ := advance_eq_ok h
  obtain ⟨-, u, s, -, hnil⟩ := Passes.cons_iff.1 hpass
  exact congrArg Lookahead.current (Passes.nil_iff.1 hnil).symm

theorem advance_of_passes {p : Parser σ} {t : Token} {m : Lookahead σ}
    (h : Passes p.lookahead [t] m) :
    ∃ p', advance p = .ok t p' ∧ p'.lookahead = m ∧ p'.record = p.record := by
  obtain ⟨rfl, u, s, pull, rest⟩ := Passes.cons_iff.1 h
  cases Passes.nil_iff.1 rest
  change TokenSupply.pull p.supply = _ at pull
  simp only [advance, pull]
  exact ⟨_, rfl, rfl, rfl⟩

end Parser

end TeenyLang
