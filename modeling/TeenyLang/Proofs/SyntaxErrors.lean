import TeenyLang.Proofs.Foresight
import TeenyLang.Proofs.Replay
import TeenyLang.Proofs.ShownLine

set_option autoImplicit false

/-!
# Where a syntax error is reported

A syntax error is reported at the first token at which the source stops to be the beginning of a
program: some program begins with the kinds of the tokens before it, and none does with that token
too. The first half is what the rules have followed so far. For the second, the rules are run over a
program that begins like the source: they would come to the same syntax error in it, but on a
program they can only fail for a name.
-/
namespace TeenyLang

open Grammar

/-! ## On a program no rule fails for the syntax -/

namespace Record

theorem use_stage {r : Record} {u : Use} {d : Diagnostic} (h : r.use u = .error d) :
    d.cause.stage = some .semantic := by
  unfold use at h
  cases hrole : u.role with
  | target => simp only [hrole, reduceCtorEq] at h
  | jump =>
    simp only [hrole] at h
    split at h <;> cases h
  | read | label =>
    simp only [hrole] at h
    split at h <;> cases h
    rfl

theorem useAll_stage {r : Record} {uses : List Use} {d : Diagnostic}
    (h : r.useAll uses = .error d) : d.cause.stage = some .semantic := by
  induction uses generalizing r with
  | nil => cases h
  | cons u uses ih =>
    simp only [useAll, List.foldlM_cons] at h ih
    cases hu : r.use u with
    | error d' =>
      rw [hu] at h
      cases h
      exact use_stage hu
    | ok r' =>
      rw [hu] at h
      exact ih h

theorem finish_stage {r : Record} {uses : List Use} {code : String} {d : Diagnostic}
    (h : (r.run uses code).bind finish = .error d) : d.cause.stage = some .semantic := by
  cases huses : r.useAll uses with
  | error d' =>
    simp only [run, huses, Except.map, Except.bind] at h
    cases h
    exact useAll_stage huses
  | ok r' =>
    simp only [run, huses, Except.map, Except.bind, finish] at h
    split at h
    · cases h
    · cases h
      rfl

end Record

namespace Parser

theorem stage_of_program {σ : Type} [TokenSupply σ] {P : Program} {p q : Parser σ}
    {l : Lookahead σ} (hpass : Passes p.lookahead P.tokens l)
    (hlast : l.current.kind = .endOfInput) {d : Diagnostic} (h : program p = .error d q) :
    d.cause.stage = some .semantic := by
  have hends := ends_program P hpass hlast
  rw [h] at hends
  generalize hexpected : (p.record.prepared.run P.uses (bodyCode p.precision P.statements)).bind
    Record.finish = expected at hends
  cases expected with
  | ok r =>
    obtain ⟨_, hok, _⟩ := hends
    cases hok
  | error d' =>
    obtain ⟨_, herror⟩ := hends
    cases herror
    exact Record.finish_stage hexpected

end Parser

theorem stage_of_derives {source file : String} {P : Program} (hP : Derives source file P)
    {precision : Int} {d : Diagnostic} (h : targetText source file precision = .error d) :
    d.cause.stage = some .semantic := by
  obtain ⟨lines, htext⟩ := targetText_of_derives hP precision
  rw [htext, Record.textOf] at h
  generalize hrun : ((Record.initial precision lines).run P.uses
    (bodyCode precision P.statements)).bind Record.finish = result at h
  cases result with
  | ok r => cases h
  | error d' =>
    cases h
    exact Record.finish_stage hrun

/-! ## The place in the source -/

section Place

variable {σ : Type} [TokenSupply σ]

/-- Of two ways on from one place the longer one goes on from the end of the shorter one. -/
theorem Passes.extends {l m n : Lookahead σ} {ts us : List Token} (h : Passes l ts m)
    (h' : Passes l us n) (hle : ts.length ≤ us.length) : ∃ vs, us = ts ++ vs ∧ Passes m vs n := by
  induction h generalizing us with
  | nil l => exact ⟨us, rfl, h'⟩
  | @cons l m t s ts hpull _ ih =>
    cases us with
    | nil => simp at hle
    | cons u us =>
      obtain ⟨rfl, t', s', hpull', h'⟩ := cons_iff.1 h'
      cases hpull.symm.trans hpull'
      obtain ⟨vs, rfl, hvs⟩ := ih h' (by simpa using hle)
      exact ⟨vs, rfl, hvs⟩

namespace Parser

theorem size_of_lookahead {p q : Parser σ} (h : p.lookahead = q.lookahead) : p.size = q.size :=
  congrArg (fun l : Lookahead σ => 3 * TokenSupply.remaining l.supply +
    ((if l.current.kind = .endOfInput then 0 else 1) +
      (if l.peek.kind = .endOfInput then 0 else 1))) h

theorem size_le_of_passes {p q : Parser σ} {ts : List Token}
    (h : Passes p.lookahead ts q.lookahead) : q.size ≤ p.size := by
  induction ts generalizing p with
  | nil => exact (size_of_lookahead (Passes.nil_iff.1 h)).ge
  | cons t ts ih =>
    obtain ⟨m, hfirst, hrest⟩ := h.uncons
    obtain ⟨r, hr, rfl, _⟩ := advance_of_passes hfirst
    exact (ih hrest).trans (shrinks_advance p t r hr)

/-- A parser that stands before the end of the input has come there in one way only. -/
theorem passes_unique {l : Lookahead σ} {q : Parser σ} {ts us : List Token}
    (hts : Passes l ts q.lookahead) (hus : Passes l us q.lookahead)
    (hq : q.current.kind ≠ .endOfInput) : ts = us := by
  have hloop {vs : List Token} (h : Passes q.lookahead vs q.lookahead) : vs = [] := by
    cases vs with
    | nil => rfl
    | cons t vs =>
      obtain ⟨m, hfirst, hrest⟩ := h.uncons
      obtain ⟨r, hr, rfl, _⟩ := advance_of_passes hfirst
      exact absurd (size_le_of_passes hrest) (advance_size_lt hr hq).not_ge
  rcases Nat.le_total ts.length us.length with hle | hle
  · obtain ⟨vs, rfl, hvs⟩ := hts.extends hus hle
    rw [hloop hvs, List.append_nil]
  · obtain ⟨vs, rfl, hvs⟩ := hus.extends hts hle
    rw [hloop hvs, List.append_nil]

end Parser

end Place

/-- The tokens that a parser has passed over are the first ones of the source and the current one is
the next, unless it has passed over the end of the input. -/
theorem Scanner.readAll_split {s : Scanner} {a b : Token} {ts : List Token}
    {l : Lookahead Scanner} (h : Passes ⟨s, a, b⟩ (a :: b :: ts) l)
    (hts : ∀ t ∈ ts, t.kind ≠ .endOfInput) :
    ∃ after, s.readAll.tokens = ts ++ l.current :: after := by
  rcases readAll_offered h with ⟨rest, htokens⟩ | ⟨-, last, n, hlast, hend, htokens⟩
  · exact ⟨_, htokens⟩
  · obtain ⟨before, hbefore⟩ := List.getLast?_eq_some_iff.1 hend
    rw [hbefore, List.append_assoc] at htokens
    rw [hbefore]
    rcases List.append_eq_append_iff.1 htokens with ⟨more, rfl, hmore⟩ | ⟨more, rfl, hmore⟩
    · have hhead : some l.current = (more ++ [last]).head? := by
        cases more with
        | nil => exact congrArg List.head? hmore
        | cons t more => exact congrArg List.head? hmore
      obtain ⟨after, hafter⟩ := List.head?_eq_some_iff.1 hhead.symm
      exact ⟨after, by rw [List.append_assoc, hafter]⟩
    · cases more with
      | nil =>
        have hcurrent : some last = some l.current := congrArg List.head? hmore
        cases hcurrent
        exact ⟨[], by simp⟩
      | cons t more =>
        have hfirst : some last = some t := congrArg List.head? hmore
        cases hfirst
        exact absurd hlast (hts last (by simp))

/-! ## The same error in a program -/

instance {σ : Type} [TokenSupply σ] [FailsLexically σ] : FailsLexically (Replay σ) where
  stage_eq := by
    intro r r' d h
    have hbeyond {s : σ} (h : Replay.pullBeyond s = .error d r') :
        d.cause.stage = some .lexical := by
      unfold Replay.pullBeyond at h
      split at h
      · cases h
      · next hpull =>
        cases h
        exact FailsLexically.stage_eq hpull
    match r with
    | .listed (t :: upcoming) after => cases h
    | .listed [] after => exact hbeyond h
    | .beyond s => exact hbeyond h

namespace Replay

variable {σ : Type} [TokenSupply σ]

theorem pull_beyond {s s' : σ} {t : Token} (h : TokenSupply.pull s = .ok t s') :
    TokenSupply.pull (beyond s) = .ok t (beyond s') := by
  change pullBeyond s = _
  simp only [pullBeyond, h]

/-- Whatever tokens are to be passed over, there is a list that begins with them. -/
theorem exists_passes (ts : List Token) {m : Lookahead (Replay σ)} {upcoming : List Token} {s : σ}
    (hm : m.supply = .listed upcoming s) :
    ∃ l upcoming', l.supply = .listed upcoming' s ∧ Passes l ts m := by
  induction ts with
  | nil => exact ⟨m, upcoming, hm, .nil m⟩
  | cons t ts ih =>
    obtain ⟨l, upcoming', hl, hpass⟩ := ih
    refine ⟨⟨.listed (l.peek :: upcoming') s, t, l.current⟩, _, rfl, ?_⟩
    refine .cons (t := l.peek) (s := .listed upcoming' s) rfl ?_
    rw [← hl]
    exact hpass

end Replay

/-- The parser with its supply taken as one that is beyond a list. -/
def Parser.beyond {σ : Type} (p : Parser σ) : Parser (Replay σ) :=
  { p with supply := .beyond p.supply }

theorem Passes.beyond {σ : Type} [TokenSupply σ] {l m : Lookahead σ} {ts : List Token}
    (h : Passes l ts m) :
    Passes ⟨Replay.beyond l.supply, l.current, l.peek⟩ ts
      ⟨Replay.beyond m.supply, m.current, m.peek⟩ := by
  induction h with
  | nil l => exact .nil _
  | @cons l m t s ts hpull _ ih =>
    exact .cons (l := ⟨.beyond l.supply, l.current, l.peek⟩) (Replay.pull_beyond hpull) ih

namespace Parser

variable {σ : Type} [TokenSupply σ] [FailsLexically σ]

/-- After a syntax error at a token that does not end the input, no program begins with the tokens
up to that one: the rules would come to the same error in it. -/
theorem not_isPrefix_of_program {p q : Parser (Replay σ)} {d : Diagnostic}
    (h : program p = .error d q) (hd : d.cause.stage = some .syntactic) {ts : List Token}
    (hpass : Passes p.lookahead ts q.lookahead) (hq : q.current.kind ≠ .endOfInput) (s : σ)
    (P : Program) : ¬ ts ++ [q.current] <+: P.tokens := by
  rintro ⟨rest, hP⟩
  obtain ⟨ts', hpass', hsame⟩ := Performs.settled performs_program (p := p) fun d' q' h' => by
    cases h.symm.trans h'
    simp [hd]
  rw [h] at hpass' hsame
  obtain rfl := passes_unique hpass hpass' hq
  let last : Token := ⟨.endOfInput, "", ⟨"", 0, 0⟩⟩
  let stop : Lookahead (Replay σ) := ⟨.listed [] s, last, last⟩
  obtain ⟨m, upcoming, hm, hrest⟩ := Replay.exists_passes (q.current :: rest) (m := stop) rfl
  obtain ⟨l, _, _, hbegin⟩ := Replay.exists_passes ts hm
  let p' : Parser (Replay σ) :=
    { p with supply := l.supply, current := l.current, peek := l.peek }
  have hwhole : Passes p'.lookahead P.tokens stop := by
    rw [← hP, List.append_assoc]
    exact hbegin.append hrest
  have hcurrent : l.current = p.current := current_of_passes hpass hbegin hrest.head_eq
  have hface : p'.face = p.face := by
    change { p.face with current := l.current } = p.face
    rw [hcurrent]
    rfl
  obtain ⟨q', hq'⟩ := hsame p' m hface hbegin hrest.head_eq
  have hsemantic := stage_of_program hwhole rfl hq'
  rw [hd] at hsemantic
  cases hsemantic

end Parser

namespace Scanner

theorem failure_of_next {s s' : Scanner} {t : Token} (h : next s = .ok t s') :
    s'.readAll.failure = s.readAll.failure := by
  rw [readAll_of_ok h]
  split
  · next hend => rw [readAll_of_ok (next_endOfInput h hend), if_pos hend]
  · rfl

theorem failure_stage {s : Scanner} {d : Diagnostic} (h : s.readAll.failure = some d) :
    d.cause.stage = some .lexical := by
  induction s using WellFounded.induction (measure fun s : Scanner => s.cursor.rest.length).wf with
  | _ s ih =>
    cases hnext : next s with
    | error d' s' =>
      rw [readAll_of_error hnext] at h
      cases h
      exact next_fault hnext
    | ok t s' =>
      by_cases hend : t.kind = .endOfInput
      · rw [readAll_of_ok hnext, if_pos hend] at h
        cases h
      · exact ih s' (next_lt hnext hend) ((failure_of_next hnext).trans h)

/-- A scanner beside itself, with the failure that it may come to. -/
theorem coupling_beyond (fault : Diagnostic) :
    Parser.Coupling
      (fun (s : Scanner) r => r = Replay.beyond s ∧ ∀ d, s.readAll.failure = some d → d = fault)
      (fun _ => True) fault := by
  refine ⟨?_, fun _ => trivial⟩
  rintro s r ⟨rfl, hfault⟩
  cases hnext : next s with
  | error d s' =>
    obtain rfl := hfault d (by rw [readAll_of_error hnext])
    exact .inr ⟨⟨s', hnext⟩, trivial⟩
  | ok t s' =>
    refine .inl ⟨t, s', .beyond s', hnext, Replay.pull_beyond hnext, rfl, fun d hd => ?_⟩
    exact hfault d ((failure_of_next hnext).symm.trans hd)

end Scanner

namespace Parser

theorem eq_of_bare {σ : Type} {p q : Parser σ} (hbare : p.bare = q.bare)
    (hsupply : p.supply = q.supply) : p = q := by
  change ({ p.bare with supply := p.supply } : Parser σ) = { q.bare with supply := q.supply }
  rw [hbare, hsupply]

/-- A syntax error is the same with the scanner taken as a supply beyond a list. -/
theorem program_beyond {p q : Parser Scanner} {d : Diagnostic} (h : program p = .error d q)
    (hd : d.cause.stage = some .syntactic) : program p.beyond = .error d q.beyond := by
  obtain ⟨fault, hfault, hstage⟩ : ∃ fault : Diagnostic,
      (∀ d, p.supply.readAll.failure = some d → d = fault) ∧
        fault.cause.stage ≠ some .syntactic := by
    cases hfailure : p.supply.readAll.failure with
    | none => exact ⟨.missingLabels [] [], by simp, by simp [Diagnostic.missingLabels, Cause.stage]⟩
    | some fault => exact ⟨fault, by simp, by simp [Scanner.failure_stage hfailure]⟩
  have hmatches := (performs_program p).matches (Scanner.coupling_beyond fault)
    (performs_program p.beyond) ⟨rfl, rfl, hfault⟩
  rw [h] at hmatches
  generalize program p.beyond = result at hmatches
  cases hmatches with
  | @error _ q' _ hlevel =>
    obtain ⟨hbare, hsupply, _⟩ := hlevel
    have heq : q' = q.beyond := eq_of_bare hbare.symm hsupply
    rw [heq]
  | lost => exact absurd hd hstage

end Parser

theorem exists_program_of_kinds {ts : List Token} {P : Program}
    (h : ts.map Token.kind <+: P.tokens.map Token.kind) : ∃ P' : Program, ts <+: P'.tokens := by
  have hkinds : (ts ++ P.tokens.drop ts.length).map Token.kind = P.tokens.map Token.kind := by
    rw [List.map_append, List.map_drop]
    simpa using (List.prefix_append_drop h).symm
  obtain ⟨P', hP'⟩ := Recasts.program P _ hkinds
  exact ⟨P', hP' ▸ List.prefix_append _ _⟩

/-- A syntax error is reported at a token of the source, possibly at the end of the input, such that
the kinds of the tokens before it are those with which some program begins, and no program with the
end of the input after it begins with the kinds of the tokens up to that one. -/
theorem targetText_syntaxError {source file : String} {precision : Int} {d : Diagnostic}
    (h : targetText source file precision = .error d) (hd : d.cause.stage = some .syntactic) :
    ∃ before t after, (Scanner.start source file).readAll.tokens = before ++ t :: after ∧
      d.location = some t.location ∧
      (∃ P : Program, before.map Token.kind <+: P.tokens.map Token.kind) ∧
      ¬ ∃ P : Program, (before ++ [t]).map Token.kind <+:
        P.tokens.map Token.kind ++ [.endOfInput] := by
  rcases targetText_eq_error h with hp | ⟨p, q, hp, hq⟩
  · rw [Parser.ofSource_error hp] at hd
    cases hd
  obtain ⟨hfill, _⟩ := Parser.start_eq_ok hp
  obtain ⟨hplace, ts, rest, hpass, P, hP⟩ := (Parser.performs_program p).viable
    Parser.passive_programItems Parser.programItems_le hq hd
  have hviable : ts <+: P.tokens := ⟨rest, hP.symm⟩
  have hmore : ∀ t ∈ ts, t.kind ≠ .endOfInput := fun t ht => P.tokens_ne t (hviable.subset ht)
  obtain ⟨after, htokens⟩ := Scanner.readAll_split (hfill.append hpass) hmore
  refine ⟨ts, q.current, after, htokens, hplace, ⟨P, hviable.map _⟩, ?_⟩
  rintro ⟨P, hP⟩
  rcases List.prefix_concat_iff.1 hP with hkinds | hkinds
  · -- The tokens of the source are those of a program, and this can fail only for a name.
    rw [List.map_append] at hkinds
    obtain ⟨hkinds, hend⟩ := List.append_inj' hkinds rfl
    have hend : q.current.kind = .endOfInput := by simpa using hend
    obtain ⟨P', rfl⟩ := Recasts.program P ts hkinds
    obtain ⟨hfailure, htokens⟩ := Scanner.readAll_of_passes (hfill.append hpass) hend hmore
    have hsemantic := stage_of_derives ⟨hfailure, q.current, hend, htokens⟩ h
    rw [hd] at hsemantic
    cases hsemantic
  · obtain ⟨P', hP'⟩ := exists_program_of_kinds hkinds
    have hend : q.current.kind ≠ .endOfInput :=
      P'.tokens_ne q.current (hP'.subset (by simp))
    exact Parser.not_isPrefix_of_program (Parser.program_beyond hq hd) hd hpass.beyond hend
      p.supply P' hP'

section Inner

/-- The condition of the inner block compares nothing. -/
def innerSource : String :=
  "WHILE 1 > 0 REPEAT\nIF 2 THEN\nENDIF\nENDWHILE"

def innerKinds : List Kind :=
  [.keyword .WHILE, .number, .operator .greater, .number, .keyword .REPEAT, .newline,
    .keyword .IF, .number]

theorem targetText_syntaxError_inner :
    targetText innerSource "inner" 2 =
        .error ⟨.missingComparison "THEN", some ⟨"inner", 2, 6⟩, some "IF 2 THEN"⟩ ∧
      (∃ P : Program, innerKinds <+: P.tokens.map Token.kind) ∧
      ¬ ∃ P : Program, innerKinds ++ [.keyword .THEN] <+:
        P.tokens.map Token.kind ++ [.endOfInput] := by
  have htext : targetText innerSource "inner" 2 =
      .error ⟨.missingComparison "THEN", some ⟨"inner", 2, 6⟩, some "IF 2 THEN"⟩ := by
    decide +kernel
  obtain ⟨before, t, after, htokens, hplace, hviable, hdead⟩ := targetText_syntaxError htext rfl
  -- No other token of the source is at that place.
  have honly : ∀ n < 15, ((Scanner.start innerSource "inner").readAll.tokens.map
      Token.location)[n]? = some ⟨"inner", 2, 6⟩ → n = 8 := by decide +kernel
  have hkinds : ((Scanner.start innerSource "inner").readAll.tokens.map Token.kind).take 9 =
      innerKinds ++ [.keyword .THEN] := by decide +kernel
  have hlength : (Scanner.start innerSource "inner").readAll.tokens.length = 15 := by
    decide +kernel
  rw [htokens] at honly hkinds hlength
  have hbefore : before.length = 8 := by
    refine honly before.length ?_ ?_
    · simp only [List.length_append, List.length_cons] at hlength
      omega
    · simpa using hplace.symm
  have hsplit : (before ++ [t]).map Token.kind = innerKinds ++ [.keyword .THEN] := by
    rw [← hkinds, ← List.map_take]
    simp [List.take_append, hbefore]
  rw [hsplit] at hdead
  rw [List.map_append] at hsplit
  rw [(List.append_inj' hsplit rfl).1] at hviable
  exact ⟨htext, hviable, hdead⟩

end Inner

end TeenyLang
