import TeenyLang.Proofs.LikeRuns
import TeenyLang.Proofs.Replay
import Mathlib.Data.List.Destutter

set_option autoImplicit false

/-!
# Layout

Blanks and comments are no tokens, and where one newline may stand, any number of them may. So what
a source comes to hangs only on its `outline`: the kinds and texts of its tokens, with one newline
in place of each run of newlines and none at the head. Two sources of the same outline have the same
translation, or they are refused for the same cause, at different places perhaps
(`targetText_layout`).
-/
namespace TeenyLang

/-! ## Outlines -/

def Token.spelled (t : Token) : Kind × String :=
  (t.kind, t.text)

def Apart (x y : Kind × String) : Prop :=
  x.1 = .newline → y.1 ≠ .newline

instance : DecidableRel Apart :=
  fun x y => inferInstanceAs (Decidable (x.1 = .newline → y.1 ≠ .newline))

/-- The kinds and texts of tokens, with each run of newlines made one. -/
def singleSpaced (tokens : List Token) : List (Kind × String) :=
  (tokens.map Token.spelled).destutter Apart

def fromFirstWord (tokens : List Token) : List Token :=
  tokens.dropWhile fun t => t.kind = .newline

def outline (tokens : List Token) : List (Kind × String) :=
  singleSpaced (fromFirstWord tokens)

section Outline

variable {t : Token} {ts us : List Token}

theorem fromFirstWord_newline (h : t.kind = .newline) :
    fromFirstWord (t :: ts) = fromFirstWord ts :=
  List.dropWhile_cons_of_pos (decide_eq_true h)

theorem fromFirstWord_word (h : t.kind ≠ .newline) : fromFirstWord (t :: ts) = t :: ts :=
  List.dropWhile_cons_of_neg (by simpa using h)

theorem singleSpaced_word (h : t.kind ≠ .newline) :
    singleSpaced (t :: ts) = t.spelled :: singleSpaced ts := by
  cases ts with
  | nil => rfl
  | cons u us => exact if_pos fun hnewline => absurd hnewline h

theorem singleSpaced_newline (h : t.kind = .newline) :
    singleSpaced (t :: ts) = t.spelled :: outline ts := by
  induction ts with
  | nil => rfl
  | cons u us ih =>
    by_cases hu : u.kind = .newline
    · rw [outline, fromFirstWord_newline hu, ← outline, ← ih]
      exact if_neg fun hapart => hapart h hu
    · rw [outline, fromFirstWord_word hu]
      exact if_pos fun _ => hu

theorem singleSpaced_cons (t : Token) (ts : List Token) :
    ∃ rest, singleSpaced (t :: ts) = t.spelled :: rest := by
  by_cases h : t.kind = .newline
  · exact ⟨_, singleSpaced_newline h⟩
  · exact ⟨_, singleSpaced_word h⟩

theorem spelled_eq_of_singleSpaced {u : Token}
    (h : singleSpaced (t :: ts) = singleSpaced (u :: us)) : t.spelled = u.spelled := by
  obtain ⟨rest, ht⟩ := singleSpaced_cons t ts
  obtain ⟨rest', hu⟩ := singleSpaced_cons u us
  rw [ht, hu] at h
  exact (List.cons.inj h).1

/-- Runs of newlines that are passed over leave the rest alike. -/
theorem outline_eq_of_singleSpaced (h : singleSpaced ts = singleSpaced us) :
    outline ts = outline us := by
  cases ts with
  | nil =>
    cases us with
    | nil => rfl
    | cons u us =>
      obtain ⟨rest, hu⟩ := singleSpaced_cons u us
      cases h.trans hu
  | cons t ts =>
    cases us with
    | nil =>
      obtain ⟨rest, ht⟩ := singleSpaced_cons t ts
      cases h.symm.trans ht
    | cons u us =>
      have hkind : t.kind = u.kind := congrArg Prod.fst (spelled_eq_of_singleSpaced h)
      by_cases ht : t.kind = .newline
      · have hu : u.kind = .newline := hkind ▸ ht
        rw [singleSpaced_newline ht, singleSpaced_newline hu] at h
        rw [outline, outline, fromFirstWord_newline ht, fromFirstWord_newline hu]
        exact (List.cons.inj h).2
      · have hu : u.kind ≠ .newline := hkind ▸ ht
        rw [outline, outline, fromFirstWord_word ht, fromFirstWord_word hu]
        exact h

end Outline

/-! ## The tokens before a parser -/

section Awaits

variable {σ : Type} [TokenSupply σ] {l : Lookahead σ} {ts : List Token}

/-- The tokens that are still to be read, up to one that ends the input. -/
def Awaits (l : Lookahead σ) (ts : List Token) : Prop :=
  ∃ before m, Passes l before m ∧ m.current.kind = .endOfInput ∧ ts = before ++ [m.current]

theorem Awaits.cons (h : Awaits l ts) : ∃ rest, ts = l.current :: rest := by
  obtain ⟨before, m, hpass, -, rfl⟩ := h
  cases before with
  | nil =>
    rw [Passes.nil_iff.1 hpass]
    exact ⟨[], rfl⟩
  | cons t before =>
    rw [hpass.head_eq]
    exact ⟨before ++ [m.current], rfl⟩

theorem Awaits.pull {rest : List Token} (h : Awaits l (l.current :: rest))
    (hmore : l.current.kind ≠ .endOfInput) :
    ∃ t s, TokenSupply.pull l.supply = .ok t s ∧ Awaits ⟨s, l.peek, t⟩ rest := by
  obtain ⟨before, m, hpass, hend, htokens⟩ := h
  cases before with
  | nil =>
    obtain rfl := Passes.nil_iff.1 hpass
    exact absurd hend hmore
  | cons u before =>
    obtain ⟨-, t, s, hpull, hrest⟩ := Passes.cons_iff.1 hpass
    exact ⟨t, s, hpull, before, m, hrest, hend, (List.cons.inj htokens).2⟩

/-- Skipping newlines, of which there may be any number, never fails. -/
theorem skipNewlines_of_awaits {p : Parser σ} (h : Awaits p.lookahead ts) :
    ∃ q, Parser.skipNewlines p = .ok () q ∧ q.record = p.record ∧
      Awaits q.lookahead (fromFirstWord ts) := by
  induction ts generalizing p with
  | nil =>
    obtain ⟨rest, hrest⟩ := h.cons
    cases hrest
  | cons t ts ih =>
    obtain ⟨rest, hrest⟩ := h.cons
    obtain ⟨rfl, rfl⟩ := List.cons.inj hrest
    by_cases hkind : p.lookahead.current.kind = .newline
    · obtain ⟨t, s, hpull, hawaits⟩ := h.pull (by simp [hkind])
      obtain ⟨q, hadvance, hq, hrecord⟩ := Parser.advance_of_passes (.cons hpull (.nil _))
      rw [← hq] at hawaits
      obtain ⟨r, hskip, hrecord', hr⟩ := ih hawaits
      refine ⟨r, ?_, hrecord'.trans hrecord, ?_⟩
      · rw [Parser.skipNewlines, Parser.whileCurrent_of_true (decide_eq_true hkind),
          Parser.bind_of_ok (Parser.discard_of_ok hadvance)]
        exact hskip
      · rw [fromFirstWord_newline hkind]
        exact hr
    · refine ⟨p, Parser.whileCurrent_of_false (decide_eq_false hkind), rfl, ?_⟩
      rw [fromFirstWord_word hkind]
      exact h

/-- A parser on a source that is read to its end has all its tokens before it. -/
theorem ofSource_awaits {source file : String}
    (h : (Scanner.start source file).readAll.failure = none) (precision : Int) :
    ∃ p lines, Parser.ofSource source file precision = .ok p ∧
      p.record = Parser.blankRecord precision lines ∧
      Awaits p.lookahead (Scanner.start source file).readAll.tokens := by
  obtain ⟨ts, last, final, htokens, hlast, hpass⟩ := Scanner.readAll_passes _ h
  obtain ⟨m, hfill, hpass⟩ :=
    @Passes.split _ _ _ _ [Parser.unread, Parser.unread] ts (hpass Parser.unread Parser.unread)
  obtain ⟨p, hp, rfl, hrecord⟩ :=
    Parser.start_of_passes precision (Text.splitLines (source ++ "\n")) hfill
  exact ⟨p, _, hp, hrecord, ts, _, hpass, hlast, htokens⟩

end Awaits

/-! ## Two runs -/

section Runs

variable {σ τ : Type} [TokenSupply σ] [TokenSupply τ]

def respaced : Parser.Pairing σ τ where
  tied l m := ∃ ts us, Awaits l ts ∧ Awaits m us ∧ singleSpaced ts = singleSpaced us
  place _ _ := True
  shown _ _ := True
  fault _ _ := False
  counted := False
  shorter := False

/-- What two parsers have noted down is alike if their records are. -/
theorem respaced_noted {p p' : Parser σ} {q q' : Parser τ} (h : respaced.Noted p q)
    (hp : p'.record = p.record) (hq : q'.record = q.record) : respaced.Noted p' q' := by
  obtain ⟨hprecision, -, hvariables, hlabels, hjumps, hlisting⟩ := Record.mk.inj hp
  obtain ⟨hprecision', -, hvariables', hlabels', hjumps', hlisting'⟩ := Record.mk.inj hq
  refine ⟨?_, ?_, ?_, ?_, ?_, fun _ _ _ => trivial, False.elim⟩
  · rw [hprecision, hprecision', h.precision]
  · rw [hvariables, hvariables', h.variableNames]
  · rw [hlabels, hlabels']
    exact h.labels
  · rw [hjumps, hjumps']
    exact h.jumps
  · rw [hlisting, hlisting', h.listing]

theorem respaced_lawful : (respaced : Parser.Pairing σ τ).Lawful where
  shown_none := trivial
  current := by
    rintro l m ⟨ts, us, hts, hus, hsame⟩
    obtain ⟨ts, rfl⟩ := hts.cons
    obtain ⟨us, rfl⟩ := hus.cons
    have hspelled := spelled_eq_of_singleSpaced hsame
    exact ⟨congrArg Prod.fst hspelled, congrArg Prod.snd hspelled, trivial⟩
  pull := by
    rintro l m ⟨ts, us, hts, hus, hsame⟩ hpassable
    obtain ⟨ts, rfl⟩ := hts.cons
    obtain ⟨us, rfl⟩ := hus.cons
    have hkind : l.current.kind = m.current.kind :=
      congrArg Prod.fst (spelled_eq_of_singleSpaced hsame)
    have hpassable' : Parser.Passable m.current.kind := hkind ▸ hpassable
    obtain ⟨t, s, hpull, hts⟩ := hts.pull hpassable.2
    obtain ⟨u, r, hpull', hus⟩ := hus.pull hpassable'.2
    rw [singleSpaced_word hpassable.1, singleSpaced_word hpassable'.1] at hsame
    exact .ok hpull hpull' False.elim ⟨ts, us, hts, hus, (List.cons.inj hsame).2⟩
  skip := by
    intro p q h
    obtain ⟨ts, us, hts, hus, hsame⟩ := h.tied
    obtain ⟨p', hp, hrecord, hts⟩ := skipNewlines_of_awaits hts
    obtain ⟨q', hq, hrecord', hus⟩ := skipNewlines_of_awaits hus
    rw [hp, hq]
    refine .ok { respaced_noted h.toNoted hrecord hrecord' with tied := ?_ }
    exact ⟨_, _, hts, hus, outline_eq_of_singleSpaced hsame⟩

end Runs

/-! ## What a source comes to -/

def Cause.unplaced : Cause → Cause
  | duplicateLabel label _ => duplicateLabel label none
  | undeclaredLabels labels _ => undeclaredLabels labels []
  | cause => cause

theorem Cause.Like.unplaced_eq {place : Location → Location → Prop} {cause cause' : Cause}
    (h : cause.Like place cause') : cause.unplaced = cause'.unplaced := by
  cases h <;> rfl

theorem verdict_of_outcome {σ τ : Type}
    {result : EStateM.Result Diagnostic (Parser σ) Unit}
    {result' : EStateM.Result Diagnostic (Parser τ) Unit} [TokenSupply σ] [TokenSupply τ]
    (h : respaced.Outcome False result result') :
    (Parser.verdictText result).mapError (fun d => d.cause.unplaced) =
      (Parser.verdictText result').mapError fun d => d.cause.unplaced := by
  cases h with
  | ok halike => exact congrArg (fun l : Target.Listing => Except.ok l.text) halike.listing
  | error htold _ =>
    cases htold with
    | fault h => exact h.elim
    | refusal hcause _ _ => exact congrArg Except.error hcause.unplaced_eq
  | ended hends _ => exact hends.elim

theorem targetText_eq_verdict {source file : String} {precision : Int} {p : Parser Scanner}
    (h : Parser.ofSource source file precision = .ok p) :
    targetText source file precision = Parser.verdictText (Parser.program p) := by
  change (Parser.ofSource source file precision).bind _ = _
  rw [h]
  simp only [Except.bind]
  cases Parser.program p <;> rfl

/-- Two sources whose tokens have the same outline have the same translation, or are refused for the
same cause. -/
theorem targetText_layout {source source' file file' : String} (precision : Int)
    (hread : (Scanner.start source file).readAll.failure = none)
    (hread' : (Scanner.start source' file').readAll.failure = none)
    (h : outline (Scanner.start source file).readAll.tokens =
      outline (Scanner.start source' file').readAll.tokens) :
    (targetText source file precision).mapError (fun d => d.cause.unplaced) =
      (targetText source' file' precision).mapError fun d => d.cause.unplaced := by
  obtain ⟨p, lines, hp, hrecord, hawaits⟩ := ofSource_awaits hread precision
  obtain ⟨q, lines', hq, hrecord', hawaits'⟩ := ofSource_awaits hread' precision
  have hfresh : respaced.Noted (Parser.fresh precision lines p.supply)
      (Parser.fresh precision lines' q.supply) :=
    ⟨rfl, rfl, .nil, .nil, rfl, fun _ _ _ => trivial, False.elim⟩
  have hnoted : respaced.Noted p.prepared q.prepared :=
    have hstart := respaced_noted hfresh hrecord hrecord'
    { hstart with listing := by rw [Parser.prepared, Parser.prepared, hstart.listing] }
  -- the newlines at the head are skipped before the first rule looks at a token
  obtain ⟨p', hskip, hp', hts⟩ := @skipNewlines_of_awaits _ _ _ p.prepared hawaits
  obtain ⟨q', hskip', hq', hus⟩ := @skipNewlines_of_awaits _ _ _ q.prepared hawaits'
  have halike : respaced.Alike p' q' :=
    { respaced_noted hnoted hp' hq' with tied := ⟨_, _, hts, hus, h⟩ }
  have hpairs := Parser.Pairing.pairs_statements respaced_lawful halike
  rw [targetText_eq_verdict hp, targetText_eq_verdict hq, Parser.program_eq, Parser.program_eq,
    Parser.bind_of_ok hskip, Parser.bind_of_ok hskip']
  exact verdict_of_outcome hpairs

section Spacing

def denseLines : String :=
  "LABEL a\nIF 1>0 THEN\nLABEL a\nENDIF"

def airyLines : String :=
  "\n# begin\n\nLABEL a # here\n\n\n\tIF 1 > 0 THEN\r\n\n\n  LABEL a\nENDIF\n\n"

/-- The label is set again in the third line of the one and in the tenth line of the other. -/
theorem targetText_layout_airy :
    outline (Scanner.start denseLines "f").readAll.tokens =
        outline (Scanner.start airyLines "g").readAll.tokens ∧
      targetText denseLines "f" 2 = .error
        ⟨.duplicateLabel "a" (some ⟨"f", 1, 7⟩), some ⟨"f", 3, 7⟩, some "LABEL a"⟩ ∧
      (targetText airyLines "g" 2).mapError (fun d => d.cause.unplaced) =
        .error (.duplicateLabel "a" none) := by
  have houtline : outline (Scanner.start denseLines "f").readAll.tokens =
      outline (Scanner.start airyLines "g").readAll.tokens := by
    decide +kernel
  have hrefused : targetText denseLines "f" 2 = .error
      ⟨.duplicateLabel "a" (some ⟨"f", 1, 7⟩), some ⟨"f", 3, 7⟩, some "LABEL a"⟩ := by
    decide +kernel
  refine ⟨houtline, hrefused, ?_⟩
  rw [← targetText_layout 2 (by decide +kernel) (by decide +kernel) houtline, hrefused]
  rfl

end Spacing

end TeenyLang
