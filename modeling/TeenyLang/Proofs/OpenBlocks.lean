import TeenyLang.Proofs.InputEnd
import TeenyLang.Proofs.NameFaults
import TeenyLang.Proofs.SyntaxErrors

set_option autoImplicit false

/-!
# Blocks that are left open

What stands before the end of the input when a program breaks off inside a block: a program, and
then the heads of the blocks that are open, each with the whole statements in it. Such an input is
refused for the innermost of these blocks, unless one of its names is refused before
(`ends_unfinished`), and no other diagnostic has found the end of the input
(`unfinished_of_program`).
-/
namespace TeenyLang

open Grammar

namespace Grammar

/-- A block statement that breaks off between two statements of its block. -/
structure OpenBlock where
  form : BlockForm
  word : Leaf [.keyword form.opener]
  condition : Comparison
  follower : Leaf [.keyword form.follower]
  gap : Newlines
  body : List Statement

/-- A program that breaks off inside a block. The outermost of the open blocks comes first. -/
structure Unfinished where
  before : Program
  outer : List OpenBlock
  inner : OpenBlock

def OpenBlock.tokens (b : OpenBlock) : List Token :=
  Parser.openingTokens b.word b.condition b.follower b.gap ++ bodyTokens b.body

def OpenBlock.uses (b : OpenBlock) : List Use :=
  Comparison.uses b.condition ++ bodyUses b.body

def Unfinished.tokens (U : Unfinished) : List Token :=
  U.before.tokens ++ (U.outer ++ [U.inner]).flatMap OpenBlock.tokens

def Unfinished.uses (U : Unfinished) : List Use :=
  U.before.uses ++ (U.outer ++ [U.inner]).flatMap OpenBlock.uses

theorem OpenBlock.tokens_ne (b : OpenBlock) : ∀ t ∈ b.tokens, t.kind ≠ .endOfInput := by
  have hbody : ∀ t ∈ bodyTokens b.body, t.kind ≠ .endOfInput := Program.tokens_ne ⟨[], b.body⟩
  simp only [tokens, Parser.openingTokens, List.forall_mem_cons, List.forall_mem_append]
  exact ⟨⟨leaf_ne_endOfInput b.word (by simp), b.condition.tokens_ne,
    leaf_ne_endOfInput b.follower (by simp), b.gap.tokens_ne⟩, hbody⟩

theorem Unfinished.tokens_ne (U : Unfinished) : ∀ t ∈ U.tokens, t.kind ≠ .endOfInput := by
  refine List.forall_mem_append.2 ⟨U.before.tokens_ne, fun t ht => ?_⟩
  obtain ⟨b, _, ht⟩ := List.mem_flatMap.1 ht
  exact b.tokens_ne t ht

def BlockForm.unclosed (form : BlockForm) (last : Token) : Diagnostic :=
  ⟨.unexpectedToken "end of input" (some form.closer.spelling), some last.location, none⟩

end Grammar

/-- The uses of names and then a diagnostic, unless a use is refused before. -/
def Record.refuse (r : Record) (uses : List Use) (d : Diagnostic) : Except Diagnostic Record :=
  (r.useAll uses).bind fun _ => .error d

theorem Record.run_refuse (r : Record) (us vs : List Use) (code : String) (d : Diagnostic) :
    ((r.run us code).bind fun r' => r'.refuse vs d) = r.refuse (us ++ vs) d := by
  simp only [refuse, run, useAll_append]
  cases r.useAll us with
  | error e => rfl
  | ok r' =>
    change ((r'.write code).useAll vs).bind _ = (r'.useAll vs).bind _
    rw [useAll_write]
    cases r'.useAll vs <;> rfl

namespace Parser

variable {σ α : Type}

theorem Ends.then_refuse {rule : Rule σ α} {next : α → Rule σ Unit} {p : Parser σ} {a : α}
    {us vs : List Use} {code : String} {d : Diagnostic} {l m : Lookahead σ}
    (first : Ends (rule p) a (p.record.run us code) m)
    (second : ∀ q : Parser σ, q.lookahead = m → Ends (next a q) () (q.record.refuse vs d) l) :
    Ends ((rule >>= next) p) () (p.record.refuse (us ++ vs) d) l := by
  rw [← Record.run_refuse _ _ _ code]
  exact first.seq fun q hq _ => second q hq

theorem Ends.refuse_bind {rule : Rule σ Unit} {next : Unit → Rule σ Unit} {p : Parser σ}
    {uses : List Use} {d : Diagnostic} {l : Lookahead σ} {r : Record}
    (h : Ends (rule p) () (r.refuse uses d) l) :
    Ends ((rule >>= next) p) () (r.refuse uses d) l := by
  have herror : ∃ e, r.refuse uses d = .error e := by
    unfold Record.refuse
    cases r.useAll uses with
    | error e => exact ⟨e, rfl⟩
    | ok r' => exact ⟨d, rfl⟩
  obtain ⟨e, he⟩ := herror
  rw [he] at h ⊢
  obtain ⟨q, hq⟩ := h
  exact ⟨q, bind_of_error hq⟩

variable [TokenSupply σ]

/-! ## Open blocks are refused -/

/-- Inside a block at the end of the input. -/
theorem block_unclosed {form : BlockForm} {p : Parser σ} (hend : p.current.kind = .endOfInput) :
    block (.keyword form.closer) p = .error (form.unclosed p.current) p := by
  have hdescription : p.current.description = "end of input" := by
    simp only [Token.description, hend, Kind.description]
  rw [BlockForm.unclosed, ← hdescription]
  exact block_of_end (by simp [hend]) hend

/-- The statements of a block, and then whatever ends in a refusal. -/
theorem Ends.body {terminator : Kind} (hends : EndsBody terminator) {uses : List Use}
    {d : Diagnostic} {l m : Lookahead σ} (hm : m.current.kind ≠ .newline)
    (hrest : ∀ q : Parser σ, q.lookahead = m →
      Ends (block terminator q) () (q.record.refuse uses d) l)
    (body : List Statement) {p : Parser σ} (h : Passes p.lookahead (bodyTokens body) m) :
    Ends (block terminator p) () (p.record.refuse (bodyUses body ++ uses) d) l := by
  induction body generalizing p with
  | nil => exact hrest p (Passes.nil_iff.1 h)
  | cons s body ih =>
    rw [bodyTokens] at h
    obtain ⟨n, hs, hbody⟩ := h.split
    obtain ⟨word, t, ts, hhead, hkind, hword⟩ := statement_head s
    have hcurrent : p.current.kind = .keyword word := by
      have htokens : Passes p.lookahead (t :: ts) n := hhead ▸ hs
      rw [← hkind, ← htokens.head_eq]
      rfl
    have hhere : p.current.kind ≠ terminator := hcurrent ▸ (hends.1 word hword).symm
    rw [block_of_more hhere (by simp [hcurrent]), bodyUses, List.append_assoc]
    refine (ends_statement s p n hs (body_head_ne_newline hbody hm)).then_refuse fun q hq => ?_
    rw [← hq] at hbody
    exact ih hbody

/-- A block statement that is open, inside another block. -/
theorem Ends.openBlock {terminator : Kind} (hends : EndsBody terminator) (b : OpenBlock)
    {uses : List Use} {d : Diagnostic} {l m : Lookahead σ} (hm : m.current.kind ≠ .newline)
    (hrest : ∀ q : Parser σ, q.lookahead = m →
      Ends (block (.keyword b.form.closer) q) () (q.record.refuse uses d) l)
    {p : Parser σ} (h : Passes p.lookahead b.tokens m) :
    Ends (block terminator p) () (p.record.refuse (b.uses ++ uses) d) l := by
  obtain ⟨n, hopening, hbody⟩ := h.split
  have hcurrent : p.current.kind = .keyword b.form.opener := current_kind b.word hopening
  have hstarts : b.form.opener ∈ starters := by cases b.form <;> decide
  have hhere : p.current.kind ≠ terminator := hcurrent ▸ (hends.1 _ hstarts).symm
  rw [block_of_more hhere (by simp [hcurrent]), statement_eq, OpenBlock.uses, List.append_assoc]
  refine Ends.refuse_bind ((ends_opening_block b.word b.condition b.follower b.gap hopening
    (body_head_ne_newline hbody hm)).then_refuse fun q hq => ?_)
  rw [← hq] at hbody
  exact Ends.refuse_bind (Ends.body (endsBody_closer b.form) hm hrest b.body hbody)

theorem openBlocks_head_ne_newline {blocks : List OpenBlock} {l m : Lookahead σ}
    (h : Passes m (blocks.flatMap OpenBlock.tokens) l) (hl : l.current.kind ≠ .newline) :
    m.current.kind ≠ .newline := by
  cases blocks with
  | nil =>
    cases Passes.nil_iff.1 h
    exact hl
  | cons b blocks =>
    have hword : m.current = b.word.1 := h.head_eq
    rw [hword, List.mem_singleton.1 b.word.2]
    simp

/-- Blocks that are open one inside the other, up to the end of the input. -/
theorem ends_openBlocks (outer : List OpenBlock) (inner : OpenBlock) {terminator : Kind}
    (hends : EndsBody terminator) {p : Parser σ} {l : Lookahead σ}
    (h : Passes p.lookahead ((outer ++ [inner]).flatMap OpenBlock.tokens) l)
    (hend : l.current.kind = .endOfInput) :
    Ends (block terminator p) () (p.record.refuse ((outer ++ [inner]).flatMap OpenBlock.uses)
      (inner.form.unclosed l.current)) l := by
  have hl : l.current.kind ≠ .newline := by simp [hend]
  induction outer generalizing terminator p with
  | nil =>
    have hinner : Passes p.lookahead inner.tokens l := by simpa using h
    refine Ends.openBlock hends inner hl (fun q hq => ?_) hinner
    subst hq
    exact ⟨q, block_unclosed hend⟩
  | cons b outer ih =>
    obtain ⟨m, hb, hrest⟩ := h.split
    refine Ends.openBlock hends b (openBlocks_head_ne_newline hrest hl) (fun q hq => ?_) hb
    rw [← hq] at hrest
    exact ih (endsBody_closer b.form) hrest

theorem ends_unfinished (U : Unfinished) {p : Parser σ} {l : Lookahead σ}
    (h : Passes p.lookahead U.tokens l) (hend : l.current.kind = .endOfInput) :
    Ends (program p) () (p.record.prepared.refuse U.uses (U.inner.form.unclosed l.current)) l := by
  obtain ⟨m, hbefore, hblocks⟩ := h.split
  obtain ⟨n, hleading, hbody⟩ := hbefore.split
  have hm := openBlocks_head_ne_newline hblocks (by simp [hend])
  rw [program_eq]
  have hskip : Ends (skipNewlines p.prepared) () (p.prepared.record.run [] "") n :=
    ends_skipNewlines U.before.leading hleading (body_head_ne_newline hbody hm)
  refine hskip.then_refuse fun q hq => Ends.refuse_bind ?_
  rw [← hq] at hbody
  refine Ends.body endsBody_endOfInput hm (fun r hr => ?_) U.before.statements hbody
  rw [← hr] at hblocks
  exact ends_openBlocks U.outer U.inner endsBody_endOfInput hblocks hend

/-! ## Nothing else is refused there -/

/-- Where statements are refused at the end of the input, a block is open: the one that is read
or one inside it. -/
theorem openBlocks_of_block {terminator : Kind} {p q : Parser Scanner} {d : Diagnostic}
    (hready : p.lookahead.Ready) (h : block terminator p = .error d q)
    (hfound : d.cause.found? = some "end of input") :
    ∃ (body : List Statement) (blocks : List OpenBlock) (l : Lookahead Scanner),
      Passes p.lookahead (bodyTokens body ++ blocks.flatMap OpenBlock.tokens) l ∧
        l.current.kind = .endOfInput ∧ (blocks = [] → terminator ≠ .endOfInput) := by
  -- on the tokens that are left, for all blocks at once
  induction p using WellFounded.induction (measure fun q : Parser Scanner => q.size).wf
    generalizing terminator with
  | _ p ih =>
    by_cases hhere : p.current.kind = terminator
    · rw [block, whileCurrent_of_false (by simp [hhere])] at h
      cases h
    by_cases hend : p.current.kind = .endOfInput
    · exact ⟨[], [], p.lookahead, .nil _, hend, fun _ heq => hhere (hend.trans heq.symm)⟩
    rw [block_of_more hhere hend] at h
    rcases bind_eq_error h with hstatement | ⟨_, r, hstatement, hblock⟩
    · rw [statement_eq] at hstatement
      rcases bind_eq_error hstatement with hopening | ⟨opened, r, hopening, hrest⟩
      · exact absurd hfound (found_of_performs (performs_opening p) hready
          (suits_openingItems hready.current hend) hopening)
      have hsmaller : r.size < p.size := consumes_opening p opened r hopening
      have hopened := opening_passes hopening
      cases opened with
      | none => cases hrest
      | some _ =>
        obtain ⟨form, word, condition, follower, gap, rfl, hhead⟩ := hopened
        rcases bind_eq_error hrest with hblock | ⟨_, u, hblock, hclosing⟩
        · obtain ⟨body, blocks, l, hpass, hl, -⟩ := ih r hsmaller (hready.passes hhead) hblock
          refine ⟨[], ⟨form, word, condition, follower, gap, body⟩ :: blocks, l, ?_, hl, by simp⟩
          rw [List.flatMap_cons, OpenBlock.tokens, List.append_assoc]
          exact hhead.append hpass
        · obtain ⟨⟨body, hbody⟩, hcurrent⟩ :=
            block_passes hblock
          have hsuits : Suits False anywhere (closingItems (.keyword form.closer))
              u.current.kind := by
            rw [hcurrent]
            exact suits_closingItems
          exact absurd hfound (found_of_performs (performs_closing _ u)
            ((hready.passes hhead).passes hbody) hsuits hclosing)
    · obtain ⟨s, hs⟩ := statement_passes hstatement
      have hsmaller : r.size < p.size := consumes_statement p _ r hstatement
      obtain ⟨body, blocks, l, hpass, hl, hsome⟩ :=
        ih r hsmaller (hready.passes hs) hblock
      refine ⟨s :: body, blocks, l, ?_, hl, hsome⟩
      rw [bodyTokens, List.append_assoc]
      exact hs.append hpass

theorem unfinished_of_program {p q : Parser Scanner} {d : Diagnostic}
    (hready : p.lookahead.Ready) (h : program p = .error d q)
    (hfound : d.cause.found? = some "end of input") :
    ∃ (U : Unfinished) (l : Lookahead Scanner),
      Passes p.lookahead U.tokens l ∧ l.current.kind = .endOfInput := by
  rw [program_eq] at h
  rcases bind_eq_error h with hskip | ⟨_, r, hskip, h⟩
  · exact absurd hfound (found_of_performs (performs_leading p.prepared) hready
      ⟨fun _ => trivial, False.elim, fun _ _ => trivial⟩ hskip)
  obtain ⟨leading, hleading⟩ := skipNewlines_passes hskip
  rcases bind_eq_error h with hblock | ⟨_, u, hblock, hfinish⟩
  · obtain ⟨body, blocks, l, hpass, hl, hsome⟩ :=
      openBlocks_of_block (hready.passes hleading) hblock hfound
    rcases List.eq_nil_or_concat' blocks with hnil | ⟨outer, inner, rfl⟩
    · exact absurd rfl (hsome hnil)
    refine ⟨⟨⟨leading, body⟩, outer, inner⟩, l, ?_, hl⟩
    rw [Unfinished.tokens, Program.tokens, List.append_assoc]
    exact hleading.append hpass
  · obtain ⟨⟨body, hbody⟩, -⟩ := block_passes hblock
    have hperforms : Performs [.act .checkLabels, .act (.emitLine "return 0;"),
        .act (.emitLine "\x7d")] u
        ((do checkLabels; emitLine "return 0;"; emitLine "\x7d" : Rule Scanner Unit) u) :=
      .act fun _ _ => .act fun v _ => performs_act _ v
    exact absurd hfound (found_of_performs hperforms ((hready.passes hleading).passes hbody)
      trivial hfinish)

end Parser

/-- The tokens of a source that is read to its end break off inside a block, and no name in them
breaks a rule. -/
structure StopsInside (source file : String) (U : Unfinished) (last : Token) : Prop where
  complete : (Scanner.start source file).readAll.failure = none
  tokens : (Scanner.start source file).readAll.tokens = U.tokens ++ [last]
  ends : last.kind = .endOfInput
  names : InOrder U.uses

theorem program_of_tokens {source file : String} {U : Unfinished} {last : Token}
    (hcomplete : (Scanner.start source file).readAll.failure = none)
    (htokens : (Scanner.start source file).readAll.tokens = U.tokens ++ [last])
    (precision : Int) :
    ∃ p l lines, Parser.ofSource source file precision = .ok p ∧
      Parser.Ends (Parser.program p) ()
        ((Record.initial precision lines).refuse U.uses (U.inner.form.unclosed last)) l := by
  obtain ⟨ts, last', final, htokens', hlast', hpass⟩ := Scanner.readAll_passes _ hcomplete
  obtain ⟨rfl, hlast⟩ := List.append_inj' (htokens'.symm.trans htokens) rfl
  obtain rfl : last' = last := by simpa using hlast
  obtain ⟨m, hfill, hpass⟩ :=
    @Passes.split _ _ _ _ [Parser.unread, Parser.unread] U.tokens
      (hpass Parser.unread Parser.unread)
  obtain ⟨p, hp, rfl, hrecord⟩ :=
    Parser.start_of_passes precision (Text.splitLines (source ++ "\n")) hfill
  have hends := Parser.ends_unfinished U hpass hlast'
  rw [hrecord] at hends
  exact ⟨p, _, _, hp, hends⟩

theorem StopsInside.targetText_eq {source file : String} {U : Unfinished} {last : Token}
    (h : StopsInside source file U last) (precision : Int) :
    targetText source file precision = .error (U.inner.form.unclosed last) := by
  obtain ⟨p, l, lines, hp, hends⟩ := program_of_tokens h.complete h.tokens precision
  obtain ⟨r, hr⟩ := Record.useAll_of_inOrder precision lines h.names
  rw [Record.refuse, hr] at hends
  obtain ⟨q, hq⟩ := hends
  exact targetText_of_error (.inr ⟨p, q, hp, hq⟩)

theorem stopsInside_of_targetText {source file : String} {precision : Int} {d : Diagnostic}
    (h : targetText source file precision = .error d)
    (hfound : d.cause.found? = some "end of input") :
    ∃ (U : Unfinished) (last : Token), StopsInside source file U last := by
  rcases targetText_eq_error h with hstart | ⟨p, q, hp, hrun⟩
  · cases (Parser.ofSource_error hstart).symm.trans (Cause.stage_of_found hfound)
  obtain ⟨U, l, hpass, hend⟩ :=
    Parser.unfinished_of_program (Parser.ready_ofSource hp) hrun hfound
  obtain ⟨hfill, -⟩ := Parser.start_eq_ok hp
  obtain ⟨hcomplete, htokens⟩ :=
    Scanner.readAll_of_passes (hfill.append hpass) hend U.tokens_ne
  refine ⟨U, l.current, hcomplete, htokens, hend, ?_⟩
  -- a name that breaks a rule would have been refused first
  obtain ⟨p', m, lines, hp', hends⟩ := program_of_tokens hcomplete htokens precision
  cases hp.symm.trans hp'
  rw [inOrder_iff, ← Record.useAll_isOk_iff (Record.holds_initial precision lines)]
  cases huses : (Record.initial precision lines).useAll U.uses with
  | ok r => exact ⟨r, rfl⟩
  | error e =>
    rw [Record.refuse, huses] at hends
    obtain ⟨r, hr⟩ := hends
    cases hrun.symm.trans hr
    cases (Record.useAll_stage huses).symm.trans (Cause.stage_of_found hfound)

/-- The end of the input is met between statements only. Step by step a program comes to what its
rules come to, and the spots at which the current token is looked at when it is the end of the input
are the tests of three loops: over the newlines before the first statement, over the newlines after
a statement or a head, and over the statements of the program or of a block. So a diagnostic has
found the end of the input exactly if the source is read to its end and its tokens break off inside
a block with no rule broken before. It is then an unexpected token at the end of the input, and what
is expected is the word that closes the innermost open block. -/
theorem endOfInput_met_between (source file : String) (precision : Int) :
    (∀ p, Parser.ofSource source file precision = .ok p →
      Parser.Performs Parser.programItems p (Parser.program p) ∧
      ∀ spot agenda q, Parser.Leads ⟨Parser.programItems, p⟩ ⟨.look spot :: agenda, q⟩ →
        q.current.kind = .endOfInput →
          spot = .leading ∨ spot = .newlines ∨ ∃ terminator, spot = .block terminator) ∧
    ((∃ d, targetText source file precision = .error d ∧
        d.cause.found? = some "end of input") ↔
      ∃ U last, StopsInside source file U last) ∧
    (∀ U last, StopsInside source file U last →
      targetText source file precision =
        .error ⟨.unexpectedToken "end of input" (some U.inner.form.closer.spelling),
          some last.location, none⟩) := by
  refine ⟨fun p hp => ⟨Parser.performs_program p, fun spot agenda q hleads hend => ?_⟩,
    ⟨?_, ?_⟩, fun U last h => h.targetText_eq precision⟩
  · have hbetween := ((Parser.sound_program hp).leads hleads).between hend
    cases spot
    case leading => exact .inl rfl
    case newlines => exact .inr (.inl rfl)
    case block terminator => exact .inr (.inr ⟨terminator, rfl⟩)
    all_goals exact hbetween.elim
  · rintro ⟨d, hd, hfound⟩
    exact stopsInside_of_targetText hd hfound
  · rintro ⟨U, last, h⟩
    exact ⟨_, h.targetText_eq precision, rfl⟩

example : targetText "IF 1 == 1 THEN\nWHILE 2 > 1 REPEAT" "f" 2 =
    .error (BlockForm.whileRepeat.unclosed ⟨.endOfInput, "", ⟨"f", 3, 1⟩⟩) := by
  decide +kernel

namespace Parser

def Config.after : Nat → Config Scanner → Option (Config Scanner)
  | 0, c => some c
  | n + 1, c => c.next.bind (after n)

theorem leads_of_after {n : Nat} {c c' : Config Scanner} (h : c.after n = some c') :
    Leads c c' := by
  induction n generalizing c with
  | zero =>
    cases h
    exact .refl
  | succ n ih =>
    obtain ⟨c₁, hnext, hafter⟩ := Option.bind_eq_some_iff.1 h
    exact .head hnext (ih hafter)

def Config.isPastLine : Config Scanner → Bool
  | ⟨.look .newlines :: _, p⟩ => p.current.kind = .endOfInput
  | _ => false

theorem leads_of_isPastLine (source file : String) (precision : Int) (n : Nat)
    (h : ((ofSource source file precision).toOption.bind fun p =>
      Config.after n ⟨programItems, p⟩).any Config.isPastLine = true) :
    ∃ p agenda q, ofSource source file precision = .ok p ∧
      Leads ⟨programItems, p⟩ ⟨.look .newlines :: agenda, q⟩ ∧ q.current.kind = .endOfInput := by
  obtain ⟨c, hc, hpast⟩ := (Option.any_eq_true _ _).1 h
  obtain ⟨p, hp, hafter⟩ := Option.bind_eq_some_iff.1 hc
  have hleads := leads_of_after hafter
  have hsource : ofSource source file precision = .ok p := by
    cases hstart : ofSource source file precision <;> rw [hstart] at hp <;> cases hp
    rfl
  unfold Config.isPastLine at hpast
  split at hpast
  · next agenda q => exact ⟨p, agenda, q, hsource, hleads, of_decide_eq_true hpast⟩
  · cases hpast

end Parser

/-- The tests before statements are not the only ones that meet the end of the input: the loop over
the newlines after a statement looks for a further one there. -/
theorem endOfInput_met_after_newline :
    ¬ ∀ p, Parser.ofSource "PRINT 1" "<input>" 2 = .ok p →
      ∀ spot agenda q, Parser.Leads ⟨Parser.programItems, p⟩ ⟨.look spot :: agenda, q⟩ →
        q.current.kind = .endOfInput →
          spot = .leading ∨ ∃ terminator, spot = .block terminator := by
  intro h
  obtain ⟨p, agenda, q, hp, hleads, hend⟩ :=
    Parser.leads_of_isPastLine "PRINT 1" "<input>" 2 24 (by decide +kernel)
  rcases h p hp _ agenda q hleads hend with hspot | ⟨_, hspot⟩
  · cases hspot
  · cases hspot

end TeenyLang
