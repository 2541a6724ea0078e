import TeenyLang.Proofs.Acceptance
import TeenyLang.Proofs.Correspondence

set_option autoImplicit false

/-!
# Reading a finished list of tokens

A parser pulls its tokens while it reads, always one token ahead of the current one. Here its rules
are run over the list of all tokens of a source instead. If the source is read to its end, nothing
changes. If the scanner fails, a diagnostic of the rules comes first exactly if the rules give it
before the last token of the list is the current one, whatever is put after the list.
-/
namespace TeenyLang

/-- A supply that gives the tokens of a list and then goes on as another supply. The list is left
behind with the first pull beyond its end. -/
inductive Replay (σ : Type) where
  | listed (upcoming : List Token) (after : σ)
  | beyond (supply : σ)
deriving DecidableEq

namespace Replay

variable {σ : Type} [TokenSupply σ]

def pullBeyond (s : σ) : EStateM.Result Diagnostic (Replay σ) Token :=
  match TokenSupply.pull s with
  | .ok t s' => .ok t (.beyond s')
  | .error d s' => .error d (.beyond s')

def pull : EStateM Diagnostic (Replay σ) Token
  | .listed (t :: upcoming) after => .ok t (.listed upcoming after)
  | .listed [] after => pullBeyond after
  | .beyond s => pullBeyond s

def remaining : Replay σ → Nat
  | .listed upcoming after => upcoming.length + TokenSupply.remaining after
  | .beyond s => TokenSupply.remaining s

theorem pullBeyond_eq_ok {s : σ} {r : Replay σ} {t : Token} (h : pullBeyond s = .ok t r) :
    ∃ s', TokenSupply.pull s = .ok t s' ∧ r = .beyond s' := by
  unfold pullBeyond at h
  split at h
  · next u s' hpull =>
    cases h
    exact ⟨s', hpull, rfl⟩
  · cases h

instance : TokenSupply (Replay σ) where
  pull := pull
  remaining := remaining
  pull_le := by
    intro r r' t h
    match r with
    | .listed (u :: upcoming) after =>
      cases h
      simp only [remaining, List.length_cons]
      omega
    | .listed [] after | .beyond s =>
      obtain ⟨s', hpull, rfl⟩ := pullBeyond_eq_ok h
      have := TokenSupply.pull_le hpull
      simp only [remaining]
      omega
  pull_lt := by
    intro r r' t h more
    match r with
    | .listed (u :: upcoming) after =>
      cases h
      simp only [remaining, List.length_cons]
      omega
    | .listed [] after | .beyond s =>
      obtain ⟨s', hpull, rfl⟩ := pullBeyond_eq_ok h
      have := TokenSupply.pull_lt hpull more
      simp only [remaining]
      omega

end Replay

/-- A token that ends the input, as a supply that gives nothing else. -/
structure LastToken where
  token : Token
  ends : token.kind = .endOfInput
deriving DecidableEq

instance : TokenSupply LastToken where
  pull last := .ok last.token last
  remaining _ := 0
  pull_le h := by
    cases h
    exact Nat.le_refl _
  pull_lt h more := by
    cases h
    exact absurd (LastToken.ends _) more

namespace Parser

variable {σ : Type} [TokenSupply σ]

def reading : Rule σ Unit := do
  discard advance
  discard advance
  program

def verdictText (result : EStateM.Result Diagnostic (Parser σ) Unit) : Except Diagnostic String :=
  match result with
  | .ok _ p => .ok p.listing.text
  | .error d _ => .error d

omit [TokenSupply σ] in
theorem verdictText_eq_error {result : EStateM.Result Diagnostic (Parser σ) Unit} {d : Diagnostic}
    (h : verdictText result = .error d) : ∃ q, result = .error d q := by
  cases result with
  | ok _ p => cases h
  | error _ q =>
    cases h
    exact ⟨q, rfl⟩

/-- The rules over the tokens of a list and what comes after it, with the lines of `source` for
the diagnostics. -/
def batch (source : String) (precision : Int) (tokens : List Token) (after : σ) :
    EStateM.Result Diagnostic (Parser (Replay σ)) Unit :=
  reading (fresh precision (Text.splitLines (source ++ "\n")) (.listed tokens after))

/-- The current token is one of the list and not its last one: the next one has been pulled and
the others have not. -/
def Within (tokens : List Token) (q : Parser (Replay σ)) : Prop :=
  ∃ before upcoming after, q.supply = .listed upcoming after ∧
    tokens = before ++ q.current :: q.peek :: upcoming

end Parser

theorem targetText_eq_reading (source file : String) (precision : Int) :
    targetText source file precision = Parser.verdictText (Parser.reading
      (Parser.fresh precision (Text.splitLines (source ++ "\n")) (Scanner.start source file))) := by
  have hreading : (Parser.reading : Rule Scanner Unit) =
      (do discard Parser.advance; discard Parser.advance) >>= fun _ => Parser.program := by
    rw [bind_assoc]
    rfl
  change (Parser.start precision _ (Scanner.start source file)).bind _ = _
  rw [Parser.start_eq, hreading]
  generalize hfill : (do discard Parser.advance; discard Parser.advance : Rule Scanner Unit)
    (Parser.fresh precision (Text.splitLines (source ++ "\n")) (Scanner.start source file)) = result
  cases result with
  | error d p => rw [Parser.bind_of_error hfill]; rfl
  | ok a p =>
    rw [Parser.bind_of_ok hfill]
    simp only [Except.bind]
    cases Parser.program p <;> rfl

namespace Parser

variable {σ τ : Type} [TokenSupply σ] [TokenSupply τ]

theorem performs_reading (p : Parser σ) :
    Performs (.act .advance :: .act .advance :: programItems) p (reading p) :=
  .act fun _ _ => .act fun r _ => performs_program r

/-! ## The place in the list -/

theorem pulled_nil (after : σ) : ∃ s, pulled (Replay.listed [] after) = .beyond s := by
  have hpull : TokenSupply.pull (Replay.listed [] after) = Replay.pullBeyond after := rfl
  unfold pulled
  rw [hpull, Replay.pullBeyond]
  cases TokenSupply.pull after <;> exact ⟨_, rfl⟩

theorem pulled_beyond (s : σ) : ∃ s', pulled (Replay.beyond s) = .beyond s' :=
  pulled_nil s

/-- As long as only tokens of the list have been pulled, the parser stands within it. -/
def Placed (tokens : List Token) (l : Lookahead (Replay σ)) : Prop :=
  ∀ upcoming after, l.supply = .listed upcoming after →
    ∃ before, tokens = before ++ l.current :: l.peek :: upcoming

theorem keeps_placed (tokens : List Token) :
    Keeps (Placed tokens) (advance : Rule (Replay σ) Token) := by
  intro q hq upcoming after hsupply
  change (ending (advance q)).supply = _ at hsupply
  cases hlist : q.supply with
  | beyond s =>
    obtain ⟨s', hs'⟩ := pulled_beyond s
    rw [ending_advance_supply, hlist, hs'] at hsupply
    cases hsupply
  | listed ts after' =>
    cases ts with
    | nil =>
      obtain ⟨s', hs'⟩ := pulled_nil after'
      rw [ending_advance_supply, hlist, hs'] at hsupply
      cases hsupply
    | cons t ts =>
      have hpull : TokenSupply.pull q.supply = .ok t (.listed ts after') := hlist ▸ rfl
      simp only [advance, hpull] at hsupply ⊢
      cases hsupply
      obtain ⟨before, hbefore⟩ := hq (t :: upcoming) after hlist
      refine ⟨before ++ [q.current], ?_⟩
      rw [List.append_assoc]
      exact hbefore

def Left (l : Lookahead (Replay σ)) : Prop :=
  ∃ s, l.supply = .beyond s

omit [TokenSupply σ] in
theorem Left.placed {l : Lookahead (Replay σ)} (h : Left l) (tokens : List Token) :
    Placed tokens l := by
  obtain ⟨s, hs⟩ := h
  intro upcoming after hlisted
  rw [hs] at hlisted
  cases hlisted

theorem keeps_left : Keeps Left (advance : Rule (Replay σ) Token) := by
  rintro q ⟨s, hs⟩
  change ∃ s', (ending (advance q)).supply = _
  rw [ending_advance_supply, show q.supply = _ from hs]
  exact pulled_beyond s

theorem left_of_nil {q : Parser (Replay σ)} {after : σ} (h : q.supply = .listed [] after) :
    Left (ending ((discard advance : Rule (Replay σ) Unit) q)).lookahead := by
  change ∃ s, (ending _).supply = _
  rw [ending_discard, ending_advance_supply, h]
  exact pulled_nil after

theorem advance_listed {q : Parser (Replay σ)} {t : Token} {ts : List Token} {after : σ}
    (h : q.supply = .listed (t :: ts) after) :
    ∃ q', (discard advance : Rule (Replay σ) Unit) q = .ok () q' ∧
      q'.lookahead = ⟨.listed ts after, q.peek, t⟩ := by
  have hpull : TokenSupply.pull q.supply = .ok t (.listed ts after) := h ▸ rfl
  exact ⟨_, discard_of_ok (by simp only [advance, hpull]; rfl), rfl⟩

theorem placed_fill {p : Parser (Replay σ)} {tokens : List Token} {after : σ}
    (h : p.supply = .listed tokens after) :
    Placed tokens
      (ending ((do discard advance; discard advance : Rule (Replay σ) Unit) p)).lookahead := by
  match tokens with
  | [] =>
    refine Left.placed (holds_bind (left_of_nil h) fun _ q _ hq => ?_) _
    rw [ending_discard]
    exact keeps_left q hq
  | [t] =>
    obtain ⟨q, hq, hl⟩ := advance_listed h
    rw [bind_of_ok hq]
    exact (left_of_nil (congrArg Lookahead.supply hl)).placed _
  | t :: u :: rest =>
    obtain ⟨q, hq, hl⟩ := advance_listed h
    obtain ⟨q', hq', hl'⟩ := advance_listed (congrArg Lookahead.supply hl)
    rw [bind_of_ok hq, hq']
    change Placed _ q'.lookahead
    rw [hl', show q.peek = t from congrArg Lookahead.peek hl]
    intro upcoming after' hlisted
    cases hlisted
    exact ⟨[], rfl⟩

/-- A run over a list that has not gone beyond it ends within it. -/
theorem within_of_listed {source : String} {precision : Int} {tokens upcoming : List Token}
    {after after' : σ}
    (h : (ending (batch source precision tokens after)).supply = .listed upcoming after') :
    (ending (batch source precision tokens after)).Within tokens := by
  have hreading : (reading : Rule (Replay σ) Unit) =
      (do discard advance; discard advance) >>= fun _ => program := by
    rw [bind_assoc]
    rfl
  have hplaced : Placed tokens (ending (batch source precision tokens after)).lookahead := by
    rw [batch, hreading]
    refine holds_bind (placed_fill rfl) fun _ q _ hq => ?_
    exact (performs_program q).keeps (keeps_placed tokens) hq
  obtain ⟨before, hbefore⟩ := hplaced upcoming after' h
  exact ⟨before, upcoming, after', h, hbefore⟩

end Parser

namespace Scanner

variable {σ : Type} [TokenSupply σ]

/-- A scanner that will fail, beside the list of the tokens before the failure. -/
theorem coupling_of_failure (after : σ) (fault : Diagnostic) :
    Parser.Coupling
      (fun (s : Scanner) r => r = Replay.listed s.readAll.tokens after ∧
        s.readAll.failure = some fault)
      (fun r => ∃ s, r = .beyond s) fault := by
  refine ⟨?_, ?_⟩
  · rintro s r ⟨rfl, hfailure⟩
    cases hnext : next s with
    | error d s' =>
      rw [readAll_of_error hnext] at hfailure ⊢
      cases hfailure
      exact .inr ⟨⟨s', hnext⟩, Parser.pulled_nil after⟩
    | ok t s' =>
      by_cases hend : t.kind = .endOfInput
      · rw [readAll_of_ok hnext, if_pos hend] at hfailure
        cases hfailure
      · rw [readAll_of_ok hnext, if_neg hend] at hfailure ⊢
        exact .inl ⟨t, s', .listed s'.readAll.tokens after, hnext, rfl, rfl, hfailure⟩
  · rintro r ⟨s, rfl⟩
    exact Parser.pulled_beyond s

/-- A scanner that comes to the end, beside the list of its tokens with the last one repeated. -/
theorem coupling_of_end (last : LastToken) (fault : Diagnostic) :
    Parser.Coupling
      (fun (s : Scanner) r =>
        (r = Replay.listed s.readAll.tokens last ∧ s.readAll.failure = none ∧
          s.readAll.tokens.getLast? = some last.token) ∨
        ((r = .listed [] last ∨ r = .beyond last) ∧ next s = .ok last.token s))
      (fun _ => False) fault := by
  refine ⟨?_, fun h => h⟩
  rintro s r (⟨rfl, hfailure, hlast⟩ | ⟨hr, hnext⟩)
  · cases hnext : next s with
    | error d s' =>
      rw [readAll_of_error hnext] at hfailure
      cases hfailure
    | ok t s' =>
      rw [readAll_of_ok hnext] at hfailure hlast ⊢
      by_cases hend : t.kind = .endOfInput
      · rw [if_pos hend] at hlast ⊢
        obtain rfl : t = last.token := by simpa using hlast
        exact .inl ⟨_, s', .listed [] last, hnext, rfl, .inr ⟨.inl rfl, next_endOfInput hnext hend⟩⟩
      · rw [if_neg hend] at hfailure hlast ⊢
        refine .inl ⟨t, s', .listed s'.readAll.tokens last, hnext, rfl, .inl ⟨rfl, hfailure, ?_⟩⟩
        obtain ⟨ts, u, _, htokens, _⟩ := readAll_passes s' hfailure
        rw [htokens, ← List.cons_append, List.getLast?_concat] at hlast
        rw [htokens, List.getLast?_concat, hlast]
  · refine .inl ⟨_, s, .beyond last, hnext, ?_, .inr ⟨.inr rfl, hnext⟩⟩
    rcases hr with rfl | rfl <;> rfl

end Scanner

theorem targetText_of_end {source file : String} {last : LastToken} (precision : Int)
    (hfailure : (Scanner.start source file).readAll.failure = none)
    (hlast : (Scanner.start source file).readAll.tokens.getLast? = some last.token) :
    targetText source file precision = Parser.verdictText
      (Parser.batch source precision (Scanner.start source file).readAll.tokens last) := by
  have hmatches := Parser.Performs.matches (Scanner.coupling_of_end last (.missingLabels [] []))
    (Parser.performs_reading
      (Parser.fresh precision (Text.splitLines (source ++ "\n")) (Scanner.start source file)))
    (Parser.performs_reading
      (Parser.fresh precision _ (.listed (Scanner.start source file).readAll.tokens last)))
    ⟨rfl, .inl ⟨rfl, hfailure, hlast⟩⟩
  rw [targetText_eq_reading, Parser.batch]
  generalize Parser.reading (Parser.fresh precision (Text.splitLines (source ++ "\n"))
    (Scanner.start source file)) = lazy at hmatches ⊢
  generalize Parser.reading (Parser.fresh precision (Text.splitLines (source ++ "\n"))
    (Replay.listed _ last)) = whole at hmatches ⊢
  cases hmatches with
  | ok _ h => exact congrArg (fun q : Parser Unit => Except.ok q.listing.text) h.1
  | error _ _ => rfl
  | lost h => exact h.elim

/-- What a text comes to, beside the list of its tokens before a failure. -/
theorem targetText_of_failure {source file : String} {fault : Diagnostic} (precision : Int)
    (hfailure : (Scanner.start source file).readAll.failure = some fault) {σ : Type}
    [TokenSupply σ] (after : σ) :
    (∃ d, targetText source file precision = .error d ∧
      ∃ q, Parser.batch source precision (Scanner.start source file).readAll.tokens after =
        .error d q ∧ q.Within (Scanner.start source file).readAll.tokens) ∨
    (targetText source file precision = .error fault ∧
      ∃ s, (Parser.ending (Parser.batch source precision
        (Scanner.start source file).readAll.tokens after)).supply = .beyond s) := by
  have htext := targetText_eq_reading source file precision
  have hmatches := Parser.Performs.matches (Scanner.coupling_of_failure after fault)
    (Parser.performs_reading
      (Parser.fresh precision (Text.splitLines (source ++ "\n")) (Scanner.start source file)))
    (Parser.performs_reading
      (Parser.fresh precision _ (.listed (Scanner.start source file).readAll.tokens after)))
    ⟨rfl, rfl, hfailure⟩
  have hwithin := fun upcoming => @Parser.within_of_listed σ _ source precision
    (Scanner.start source file).readAll.tokens upcoming after after
  unfold Parser.batch at hwithin ⊢
  generalize Parser.reading (Parser.fresh precision (Text.splitLines (source ++ "\n"))
    (Scanner.start source file)) = lazy at htext hmatches
  generalize hwhole : Parser.reading (Parser.fresh precision (Text.splitLines (source ++ "\n"))
    (Replay.listed _ after)) = whole at hmatches hwithin ⊢
  cases hmatches with
  | ok _ _ =>
    -- A text that is accepted is read to its end.
    obtain ⟨_, hnone, _⟩ := derives_of_targetText htext
    rw [hnone] at hfailure
    cases hfailure
  | error d h => exact .inl ⟨d, htext, _, rfl, hwithin _ h.2.1⟩
  | lost h => exact .inr ⟨htext, h⟩

/-- Pulling the tokens while reading comes to the same as reading the finished list of tokens with
its last one repeated. If the scanner fails, the failure is reported, unless the rules, over the
tokens before it and whatever comes after them, end with a diagnostic while their current token is
one of these and not the last one: then that diagnostic is reported. -/
theorem targetText_eq_batch (source file : String) (precision : Int) :
    let read := (Scanner.start source file).readAll
    (read.failure = none → ∃ last : LastToken, read.tokens.getLast? = some last.token ∧
      targetText source file precision =
        Parser.verdictText (Parser.batch source precision read.tokens last)) ∧
    ∀ fault, read.failure = some fault → ∀ (σ : Type) [TokenSupply σ] (after : σ),
      (∀ d q, Parser.batch source precision read.tokens after = .error d q →
        q.Within read.tokens → targetText source file precision = .error d) ∧
      ((¬ ∃ d q, Parser.batch source precision read.tokens after = .error d q ∧
        q.Within read.tokens) → targetText source file precision = .error fault) := by
  intro read
  refine ⟨fun hfailure => ?_, fun fault hfailure σ _ after => ?_⟩
  · obtain ⟨ts, last, _, htokens, hlast, _⟩ := Scanner.readAll_passes _ hfailure
    have hgetLast : read.tokens.getLast? = some last := by
      rw [htokens, List.getLast?_concat]
    exact ⟨⟨last, hlast⟩, hgetLast, targetText_of_end precision hfailure hgetLast⟩
  · rcases targetText_of_failure precision hfailure after with
      ⟨d, htext, q, hbatch, hwithin⟩ | ⟨htext, s, hs⟩
    · refine ⟨fun d' q' hbatch' _ => ?_, fun hnone => absurd ⟨d, q, hbatch, hwithin⟩ hnone⟩
      cases hbatch.symm.trans hbatch'
      exact htext
    · refine ⟨fun d q hbatch hwithin => ?_, fun _ => htext⟩
      obtain ⟨_, upcoming, _, hlisted, _⟩ := hwithin
      rw [hbatch] at hs
      cases hlisted.symm.trans hs

section TwoFaults

def lineEnd : LastToken :=
  ⟨⟨.endOfInput, "", ⟨"line", 2, 1⟩⟩, rfl⟩

/-- The `2` fits no rule and the `$` fits no token. The first of these is reported only if there
is a token between the two. -/
theorem targetText_two_faults :
    targetText "PRINT 1 2 3 $" "line" 2 = .error
        ⟨.unexpectedToken "2" (some "newline"), some ⟨"line", 1, 9⟩, some "PRINT 1 2 3 $"⟩ ∧
      targetText "PRINT 1 2 $" "line" 2 = .error
        ⟨.unexpectedCharacter "$" none, some ⟨"line", 1, 11⟩, some "PRINT 1 2 $"⟩ ∧
      ∃ last : LastToken, targetText "PRINT 1 2" "line" 2 = Parser.verdictText
        (Parser.batch "PRINT 1 2" 2 (Scanner.start "PRINT 1 2" "line").readAll.tokens last) := by
  refine ⟨?_, ?_, ?_⟩
  · have hfailure : (Scanner.start "PRINT 1 2 3 $" "line").readAll.failure = some
        ⟨.unexpectedCharacter "$" none, some ⟨"line", 1, 13⟩, some "PRINT 1 2 3 $"⟩ := by
      decide +kernel
    have hverdict : Parser.verdictText (Parser.batch "PRINT 1 2 3 $" 2
        (Scanner.start "PRINT 1 2 3 $" "line").readAll.tokens lineEnd) = .error
          ⟨.unexpectedToken "2" (some "newline"), some ⟨"line", 1, 9⟩, some "PRINT 1 2 3 $"⟩ := by
      decide +kernel
    obtain ⟨q, hq⟩ := Parser.verdictText_eq_error hverdict
    have hlisted : (Parser.ending (Parser.batch "PRINT 1 2 3 $" 2
        (Scanner.start "PRINT 1 2 3 $" "line").readAll.tokens lineEnd)).supply =
        .listed [] lineEnd := by decide +kernel
    have hwithin := Parser.within_of_listed hlisted
    rw [hq] at hwithin
    exact ((targetText_eq_batch _ _ 2).2 _ hfailure _ lineEnd).1 _ q hq hwithin
  · have hfailure : (Scanner.start "PRINT 1 2 $" "line").readAll.failure = some
        ⟨.unexpectedCharacter "$" none, some ⟨"line", 1, 11⟩, some "PRINT 1 2 $"⟩ := by
      decide +kernel
    have hbeyond : (Parser.ending (Parser.batch "PRINT 1 2 $" 2
        (Scanner.start "PRINT 1 2 $" "line").readAll.tokens lineEnd)).supply =
        .beyond lineEnd := by decide +kernel
    refine ((targetText_eq_batch _ _ 2).2 _ hfailure _ lineEnd).2 ?_
    rintro ⟨d, q, hq, _, _, _, hlisted, _⟩
    rw [hq] at hbeyond
    cases hlisted.symm.trans hbeyond
  · have hfailure : (Scanner.start "PRINT 1 2" "line").readAll.failure = none := by
      decide +kernel
    obtain ⟨last, _, hbatch⟩ := (targetText_eq_batch _ _ 2).1 hfailure
    exact ⟨last, hbatch⟩

end TwoFaults

end TeenyLang
