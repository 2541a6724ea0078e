import TeenyLang.Proofs.InputEnd
import Mathlib.Data.Prod.Lex

set_option autoImplicit false

/-!
# Every rule stops

Between two moves of the parser the rules look at the same token from several spots, and always from
a lower one after a higher one. So no step raises the pair of what is still to be read and the rank
of the next look, and a look lowers it (`Config.height`): when a loop comes back to its test, or a
statement begins inside another one, less is ahead than before.
-/
namespace TeenyLang.Parser

variable {σ : Type}

@[simp] def Spot.rank : Spot → Nat
  | expect _ | name _ | operand | statement => 0
  | block _ | sign | operators .comparisons => 1
  | leading | newlines | comparison | printed => 2
  | operators .sums => 3
  | operators .products => 4

/-- Behind a spot only looks from below its floor can come before the parser moves on. A spot that
is left with a move has the highest floor. -/
@[simp] def Spot.floor : Spot → Nat
  | block _ | sign | comparison | operators .comparisons => 1
  | leading | newlines | statement => 2
  | name _ | printed | operators .sums => 3
  | operators .products => 4
  | expect _ | operand => 5

/-- Just above the rank of the spot from which the current token is looked at next, if it is. -/
def top : List Item → Nat
  | [] => 0
  | .act act :: rest => if act.stays then top rest else 0
  | .look spot :: _ => spot.rank + 1

def moves : List Item → Prop
  | [] | .look _ :: _ => False
  | .act act :: rest => act = .advance ∨ act.stays = true ∧ moves rest

/-- Every move comes after a look, and the looks between two moves go down. -/
def Orderly : List Item → Prop
  | [] => True
  | .act act :: rest => (act = .advance → ¬ moves rest) ∧ Orderly rest
  | .look spot :: rest =>
    spot ≠ .expect .endOfInput ∧ Orderly rest ∧ ¬ moves rest ∧ top rest ≤ spot.floor

/-- What can be done at a token of the kind `kind`, with looks from below the bound. -/
structure Fits (kind : Kind) (bound : Nat) (agenda : List Item) : Prop where
  orderly : Orderly agenda
  more : moves agenda → kind ≠ .endOfInput
  top_le : top agenda ≤ bound

/-- What can stand behind a spot with that floor: it does not move on before a look, so it could
also be done at the end of the input. -/
abbrev Trails : Nat → List Item → Prop :=
  Fits .endOfInput

section Building

variable {kind : Kind} {floor bound : Nat} {agenda : List Item}

theorem Fits.rests (h : Trails floor agenda) : ¬ moves agenda :=
  fun hmoves => h.more hmoves rfl

theorem Fits.of_trails (h : Trails floor agenda) (hle : floor ≤ bound) :
    Fits kind bound agenda :=
  ⟨h.orderly, fun hmoves => absurd hmoves h.rests, h.top_le.trans hle⟩

theorem Fits.act {act : Act} (h : Fits kind bound agenda) (hstays : act.stays = true) :
    Fits kind bound (.act act :: agenda) := by
  have hact := Act.ne_advance hstays
  exact ⟨⟨fun hadvance => absurd hadvance hact, h.orderly⟩,
    fun hmoves => h.more (hmoves.resolve_left hact).2, by simpa [top, hstays] using h.top_le⟩

theorem Fits.advance (h : Trails floor agenda) (hmore : kind ≠ .endOfInput) :
    Fits kind bound (.act .advance :: agenda) :=
  ⟨⟨fun _ => h.rests, h.orderly⟩, fun _ => hmore, Nat.zero_le _⟩

/-- An act that always fails. -/
theorem Fits.halt {act : Act} (h : Trails floor agenda) (hact : act ≠ .advance)
    (hhalts : act.stays = false) : Fits kind bound (.act act :: agenda) :=
  ⟨⟨fun hadvance => absurd hadvance hact, h.orderly⟩, by simp [moves, hact, hhalts],
    by simp [top, hhalts]⟩

theorem Fits.look {spot : Spot} (h : Trails floor agenda)
    (hspot : spot ≠ .expect .endOfInput ∧ floor ≤ spot.floor ∧ spot.rank < bound) :
    Trails bound (.look spot :: agenda) :=
  ⟨⟨hspot.1, h.orderly, h.rests, h.top_le.trans hspot.2.1⟩, False.elim, hspot.2.2⟩

end Building

theorem trails_newlineItems {agenda : List Item} (h : Trails 2 agenda) :
    Trails 1 (newlineItems ++ agenda) := by
  have hloop : Trails 3 (.look .newlines :: agenda) := h.look (by simp)
  have hfirst : Trails 1 (.look (.expect .newline) :: .look .newlines :: agenda) :=
    hloop.look (by simp)
  exact hfirst.act rfl

theorem trails_unaryItems {agenda : List Item} (h : Trails 5 agenda) :
    Trails 2 (unaryItems ++ agenda) := by
  have hoperand : Trails 1 (.look .operand :: agenda) := h.look (by simp)
  have hsign : Trails 2 (.look .sign :: .look .operand :: agenda) :=
    hoperand.look (by simp)
  exact hsign.act rfl

theorem trails_termItems {agenda : List Item} (h : Trails 4 agenda) :
    Trails 2 (termItems ++ agenda) := by
  have hoperators : Trails 5 (.look (.operators .products) :: agenda) :=
    h.look (by simp)
  have hunary := trails_unaryItems hoperators
  rw [termItems, List.cons_append, List.append_assoc]
  exact hunary.act rfl

theorem trails_expressionItems {agenda : List Item} (h : Trails 3 agenda) :
    Trails 2 (expressionItems ++ agenda) := by
  have hoperators : Trails 4 (.look (.operators .sums) :: agenda) :=
    h.look (by simp)
  have hterm := trails_termItems hoperators
  rw [expressionItems, List.cons_append, List.append_assoc]
  exact hterm.act rfl

theorem trails_comparisonItems {agenda : List Item} (h : Trails 1 agenda) :
    Trails 2 (comparisonItems ++ agenda) := by
  have htest : Trails 3 (.look .comparison :: agenda) := h.look (by simp)
  have hexpression := trails_expressionItems htest
  rw [comparisonItems, List.cons_append, List.append_assoc]
  exact hexpression.act rfl

theorem trails_operandItems (level : Precedence) {agenda : List Item}
    (h : Trails ((Spot.operators level).rank + 1) agenda) :
    Trails 2 (level.operandItems ++ agenda) := by
  cases level with
  | products => exact trails_unaryItems h
  | sums => exact trails_termItems h
  | comparisons => exact trails_expressionItems (.of_trails h (by decide))

/-! ## The plans -/

theorem trails_closingItems {terminator : Kind} (hterminator : terminator ≠ .endOfInput)
    {agenda : List Item} (h : Trails 2 agenda) :
    Trails 1 (closingItems terminator ++ agenda) := by
  have hbrace : Trails 1 (.act (.emitLine "\x7d") :: (newlineItems ++ agenda)) :=
    (trails_newlineItems h).act rfl
  exact hbrace.look (by simpa using hterminator)

theorem trails_block {kind terminator : Kind} (hend : blockEnd kind = some terminator)
    {agenda : List Item} (h : Trails 2 agenda) :
    Trails 2 (.look (.block terminator) :: (closingItems terminator ++ agenda)) := by
  have hterminator : terminator ≠ .endOfInput := by
    unfold blockEnd at hend
    split at hend <;> cases hend <;> simp
  exact (trails_closingItems hterminator h).look (by simp)

theorem fits_naming {kind : Kind} {bound : Nat} (hmore : kind ≠ .endOfInput) (title : String)
    (naming : Naming) {agenda : List Item} (h : Trails 2 agenda) :
    Fits kind bound (namingItems title naming ++ agenda) := by
  have hname : Trails 3 (.look (.name naming) :: (newlineItems ++ agenda)) :=
    (trails_newlineItems h).look (by simp)
  exact (Fits.advance hname hmore).act rfl

theorem fits_head {kind : Kind} {bound : Nat} (hmore : kind ≠ .endOfInput) (title code : String)
    (follower : Keyword) {agenda : List Item} (h : Trails 2 agenda) :
    Fits kind bound (headItems title code follower ++ agenda) := by
  have hbrace : Trails 2 (.act (.emitLine ") \x7b") :: agenda) := h.act rfl
  have hfollower : Trails 1 (.look (.expect (.keyword follower)) ::
      (newlineItems ++ .act (.emitLine ") \x7b") :: agenda)) :=
    (trails_newlineItems hbrace).look (by simp)
  have hcode : Trails 2 (.act (.emit code) :: (comparisonItems ++ _)) :=
    (trails_comparisonItems hfollower).act rfl
  have hall : Fits kind bound (.act (.note title) :: .act .advance :: .act (.emit code) :: _) :=
    (Fits.advance hcode hmore).act rfl
  simpa [headItems] using hall

theorem fits_opening (token : Token) {bound : Nat} {agenda : List Item} (h : Trails 2 agenda) :
    Fits token.kind bound (openingItems token ++ agenda) := by
  have hmore {word : Keyword} (hkind : token.kind = .keyword word) :
      token.kind ≠ .endOfInput := by simp [hkind]
  unfold openingItems
  split
  · next hkind =>
    have hprinted : Trails 3 (.look .printed :: (newlineItems ++ agenda)) :=
      (trails_newlineItems h).look (by simp)
    exact (Fits.advance hprinted (hmore hkind)).act rfl
  · next hkind => exact fits_naming (hmore hkind) _ _ h
  · next hkind => exact fits_naming (hmore hkind) _ _ h
  · next hkind => exact fits_naming (hmore hkind) _ _ h
  · next hkind => exact fits_naming (hmore hkind) _ _ h
  · next hkind => exact fits_head (hmore hkind) _ _ _ h
  · next hkind => exact fits_head (hmore hkind) _ _ _ h
  · exact .halt h (by simp) rfl

theorem trails_naming (token : Token) (naming : Naming) {agenda : List Item}
    (h : Trails 3 agenda) : Trails 5 (naming.items token ++ agenda) := by
  cases naming with
  | label | goto => exact .of_trails ((h.act rfl).act rfl) (by decide)
  | input => exact .of_trails (((((h.act rfl).act rfl).act rfl).act rfl).act rfl) (by decide)
  | assign =>
    have hend : Trails 3 (.act (.emitLine ";") :: agenda) := h.act rfl
    have hequals : Trails 1 (.look (.expect (.operator .assign)) ::
        (expressionItems ++ .act (.emitLine ";") :: agenda)) :=
      (trails_expressionItems hend).look (by simp)
    have hall : Trails 1 (.act (.declare token.text) ::
        .act (.emit (Target.name token.text ++ " = ")) :: _) := (hequals.act rfl).act rfl
    rw [Naming.items]
    simpa using Fits.of_trails hall (by decide)

theorem Precedence.test_endOfInput (level : Precedence) : level.test .endOfInput = false := by
  cases level <;> rfl

/-- One look: what is planned does not move on from the end of the input, and is looked at from
below. -/
theorem Spot.fits_plan (p : Parser σ) {spot : Spot} {agenda : List Item}
    (hspot : spot ≠ .expect .endOfInput) (h : Trails spot.floor agenda) :
    Fits p.current.kind spot.rank (spot.plan p ++ agenda) := by
  have hagain : Trails (spot.rank + 1) (.look spot :: agenda) :=
    h.look ⟨hspot, le_rfl, Nat.lt_succ_self _⟩
  cases spot with
  | leading | newlines =>
    rw [Spot.plan]
    split
    · next hkind => exact .advance hagain (by simp [hkind])
    · exact .of_trails h le_rfl
  | block terminator =>
    rw [Spot.plan]
    repeat' split
    · exact .of_trails h le_rfl
    · exact .halt h (by simp) rfl
    · have hstatement : Trails 1 (.look .statement :: .look (.block terminator) :: agenda) :=
        hagain.look (by simp)
      exact .of_trails hstatement le_rfl
  | statement =>
    rw [Spot.plan, List.append_assoc]
    refine fits_opening p.current ?_
    split
    · next hend => exact trails_block hend h
    · exact h
  | expect kind =>
    rw [Spot.plan]
    split
    · next hkind =>
      refine .advance h fun hend => hspot ?_
      rw [← hend, hkind]
    · exact .halt h (by simp) rfl
  | name naming =>
    rw [Spot.plan]
    split
    · next hkind => exact .advance (trails_naming p.current naming h) (by simp [hkind])
    · exact .halt h (by simp) rfl
  | printed =>
    rw [Spot.plan]
    split
    · next hkind => exact .advance (h.act rfl) (by simp [hkind])
    · have hend : Trails 3 (.act (.emitLine "));") :: agenda) := h.act rfl
      have hexpression := trails_expressionItems hend
      rw [List.cons_append, List.append_assoc]
      exact (Fits.of_trails hexpression le_rfl).act rfl
  | sign =>
    rw [Spot.plan]
    split
    · next hsign => exact .advance (h.act rfl) fun hend => by simp [hend, isSign] at hsign
    · exact .of_trails h le_rfl
  | operand =>
    rw [Spot.plan]
    split
    · next hkind => exact ((Fits.advance h (by simp [hkind])).act rfl).act rfl
    · next hkind =>
      split
      · exact ((Fits.advance h (by simp [hkind])).act rfl).act rfl
      · exact (Fits.halt h (by simp) rfl).act rfl
    · exact (Fits.halt h (by simp) rfl).act rfl
  | operators level =>
    rw [Spot.plan]
    split
    · next htest =>
      have hoperand : Trails 2 (level.operandItems ++ [.look (.operators level)] ++ agenda) := by
        rw [List.append_assoc]
        exact trails_operandItems level hagain
      refine .advance (hoperand.act rfl) fun hend => ?_
      rw [hend, level.test_endOfInput] at htest
      cases htest
    · exact .of_trails h (by cases level <;> rfl)
  | comparison =>
    rw [Spot.plan]
    split
    · have hloop : Trails 2 (.look (.operators .comparisons) :: agenda) := h.look (by simp)
      exact .of_trails hloop le_rfl
    · exact .halt h (by simp) rfl

/-! ## The steps -/

variable [TokenSupply σ]

namespace Config

/-- What is still to be read, and above that how high the next look stands. -/
def height (c : Config σ) : ℕ ×ₗ ℕ :=
  toLex (c.parser.size, top c.agenda)

def Steady (c : Config σ) : Prop :=
  ∃ bound, Fits c.parser.current.kind bound c.agenda

theorem height_look_lt {spot : Spot} {agenda : List Item} {p : Parser σ}
    (h : Steady ⟨.look spot :: agenda, p⟩) :
    Steady ⟨spot.plan p ++ agenda, p⟩ ∧
      height ⟨spot.plan p ++ agenda, p⟩ < height ⟨.look spot :: agenda, p⟩ := by
  obtain ⟨_, ⟨hspot, horderly, hrests, htop⟩, _, _⟩ := h
  have hfits := spot.fits_plan p hspot ⟨horderly, fun hmoves => absurd hmoves hrests, htop⟩
  refine ⟨⟨_, hfits⟩, ?_⟩
  rw [height, height, Prod.Lex.toLex_lt_toLex]
  exact .inr ⟨rfl, Nat.lt_succ_of_le hfits.top_le⟩

theorem size_of_lookahead {p q : Parser σ} (h : p.lookahead = q.lookahead) : p.size = q.size := by
  cases p
  cases q
  cases h
  rfl

theorem height_act_le {act : Act} {agenda : List Item} {p q : Parser σ}
    (h : Steady ⟨.act act :: agenda, p⟩) (hrun : act.run p = .ok () q) :
    Steady ⟨agenda, q⟩ ∧ height ⟨agenda, q⟩ ≤ height ⟨.act act :: agenda, p⟩ := by
  obtain ⟨_, ⟨hrests, horderly⟩, hmore, htop⟩ := h
  rw [height, height, Prod.Lex.toLex_le_toLex]
  cases hstays : act.stays with
  | false =>
    obtain rfl := Act.eq_advance_of_ok hrun hstays
    obtain ⟨t, hadvance⟩ := discard_eq_ok hrun
    refine ⟨⟨_, horderly, fun hmoves => absurd hmoves (hrests rfl), le_rfl⟩, .inl ?_⟩
    exact advance_size_lt hadvance (hmore (.inl rfl))
  | true =>
    have hsame := (Act.still (Act.ne_advance hstays)).lookahead_eq hrun
    have hcurrent : p.current = q.current := congrArg Lookahead.current hsame
    refine ⟨⟨_, horderly, fun hmoves => ?_, le_rfl⟩, .inr ⟨(size_of_lookahead hsame).symm, ?_⟩⟩
    · rw [← hcurrent]
      exact hmore (.inr ⟨hstays, hmoves⟩)
    · simp [top, hstays]

theorem Steady.moves {c c' : Config σ} (h : c.Moves c') (hc : c.Steady) :
    c'.Steady ∧ c'.height ≤ c.height := by
  cases h with
  | act hrun => exact height_act_le hc hrun
  | look => exact (height_look_lt hc).imp_right le_of_lt

theorem Steady.leads {c c' : Config σ} (h : c.Steady) (hleads : Leads c c') :
    c'.Steady ∧ c'.height ≤ c.height := by
  refine hleads.keeps (fun d => d.Steady ∧ d.height ≤ c.height) (fun d d' hmoves hd => ?_)
    ⟨h, le_rfl⟩
  exact (Steady.moves hmoves hd.1).imp_right fun hle => hle.trans hd.2

/-- A spot that is met again is met with a smaller parser. -/
theorem Steady.size_lt {spot : Spot} {agenda agenda' : List Item} {p q : Parser σ}
    (h : Steady ⟨.look spot :: agenda, p⟩)
    (hleads : Leads ⟨spot.plan p ++ agenda, p⟩ ⟨.look spot :: agenda', q⟩) : q.size < p.size := by
  obtain ⟨hplan, hlt⟩ := height_look_lt h
  have hheight := (hplan.leads hleads).2.trans_lt hlt
  rw [height, height, Prod.Lex.toLex_lt_toLex] at hheight
  exact hheight.resolve_right fun hsame => lt_irrefl _ hsame.2

end Config

/-! ## The rules -/

def Call.items? : Call → Option (List Item)
  | program => some programItems
  | statement => some [.look .statement]
  | block terminator => some [.look (.block terminator)]
  | newlines => some newlineItems
  | comparison => some comparisonItems
  | expression => some expressionItems
  | term => some termItems
  | unary => some unaryItems
  | primary => some [.look .operand]
  | _ => none

theorem Call.items_of_items? {call : Call} {items : List Item} (h : call.items? = some items) :
    call.items = items := by
  cases call <;> cases h <;> rfl

theorem trails_nil (floor : Nat) : Trails floor [] :=
  ⟨trivial, False.elim, Nat.zero_le _⟩

theorem trails_programItems : Trails 5 programItems := by
  have hend : Trails 1
      [.act .checkLabels, .act (.emitLine "return 0;"), .act (.emitLine "\x7d")] :=
    (((trails_nil 1).act rfl).act rfl).act rfl
  have hblock : Trails 2 (.look (.block .endOfInput) :: _) := hend.look (by simp)
  have hleading : Trails 5 (.look .leading :: .look (.block .endOfInput) :: _) :=
    hblock.look (by simp)
  exact ((hleading.act rfl).act rfl).act rfl

theorem trails_items {call : Call} {items : List Item} (h : call.items? = some items) :
    Trails 5 items := by
  have whole {n : Nat} {xs : List Item} (hxs : Trails n (xs ++ [])) (hle : n ≤ 5) :
      Trails 5 xs := by
    rw [List.append_nil] at hxs
    exact .of_trails hxs hle
  cases call <;> cases h
  case program => exact trails_programItems
  case statement | block | primary => exact (trails_nil 0).look (by simp)
  case newlines => exact whole (trails_newlineItems (trails_nil 2)) (by decide)
  case comparison => exact whole (trails_comparisonItems (trails_nil 1)) (by decide)
  case expression => exact whole (trails_expressionItems (trails_nil 3)) (by decide)
  case term => exact whole (trails_termItems (trails_nil 4)) (by decide)
  case unary => exact whole (trails_unaryItems (trails_nil 5)) (by decide)

def ahead (p : Parser Scanner) : ℕ ×ₗ ℕ :=
  toLex (p.supply.cursor.rest.length, p.pending)

theorem ahead_lt_of_size_lt {p q : Parser Scanner} (h : q.size < p.size) : q.ahead < p.ahead := by
  have hpending (r : Parser Scanner) : r.pending ≤ 2 := by
    unfold pending
    split <;> split <;> decide
  have hp := hpending p
  have hq := hpending q
  change 3 * q.supply.cursor.rest.length + q.pending <
    3 * p.supply.cursor.rest.length + p.pending at h
  rw [ahead, ahead, Prod.Lex.toLex_lt_toLex]
  simp only
  omega

theorem two_le_tokens (s : Grammar.Statement) : 2 ≤ s.tokens.length := by
  cases s <;> simp [Grammar.Statement.tokens, Grammar.Newlines.tokens] <;> omega

/-- From any parser, whatever has been called on it and however that has ended, a rule comes to its
result after finitely many steps. When in between a loop is back at its test, or a statement begins
inside another, less is ahead than at the look before. A statement that ends well has passed over at
least two tokens. -/
theorem rules_stop {call : Call} {items : List Item} (hitems : call.items? = some items)
    (p : Parser Scanner) :
    (∃ c, Leads ⟨items, p⟩ c ∧ c.next = none ∧ c.Ends ((call.rule : Rule Scanner Answer) p)) ∧
      (∀ (spot : Spot) (agenda agenda' : List Item) (q r : Parser Scanner),
        Leads ⟨items, p⟩ ⟨.look spot :: agenda, q⟩ →
        LeadsOn ⟨.look spot :: agenda, q⟩ ⟨.look spot :: agenda', r⟩ → r.ahead < q.ahead) ∧
      ∀ q, statement p = .ok () q → q.ahead < p.ahead ∧ ∃ ts, Passes p.lookahead ts q.lookahead ∧
        2 ≤ ts.length ∧ ∀ t ∈ ts, t.kind ≠ .endOfInput := by
  refine ⟨?_, ?_, ?_⟩
  · obtain ⟨c, hleads, hends⟩ := (performs_call call p).ends
    rw [Call.items_of_items? hitems] at hleads
    exact ⟨c, hleads, hends.next, hends⟩
  · intro spot agenda agenda' q r hfirst hagain
    have hsteady : Config.Steady ⟨items, p⟩ := ⟨5, .of_trails (trails_items hitems) le_rfl⟩
    obtain ⟨c, hnext, hleads⟩ := Relation.TransGen.head'_iff.mp hagain
    cases hnext
    exact ahead_lt_of_size_lt ((hsteady.leads hfirst).1.size_lt hleads)
  · intro q hrun
    obtain ⟨s, hpass⟩ := statement_passes hrun
    exact ⟨ahead_lt_of_size_lt (consumes_statement p _ q hrun), s.tokens, hpass, two_le_tokens s,
      s.tokens_ne⟩

section Again

def againToken : Token :=
  ⟨.newline, "\n", ⟨"a.teeny", 1, 1⟩⟩

/-- A parser with the same token ahead twice, as a lexical error leaves it. -/
def againParser : Parser Scanner :=
  { fresh 2 [] (Scanner.start "\n" "a.teeny") with current := againToken, peek := againToken }

/-- The loop over further newlines comes back to its test. -/
theorem rules_stop_again :
    ∃ agenda agenda' q r, Leads ⟨newlineItems, againParser⟩ ⟨.look .newlines :: agenda, q⟩ ∧
      LeadsOn ⟨.look .newlines :: agenda, q⟩ ⟨.look .newlines :: agenda', r⟩ ∧
      r.ahead < q.ahead := by
  have hitems : Call.newlines.items? = some newlineItems := rfl
  have hfirst : Leads ⟨newlineItems, againParser⟩ ⟨[.look .newlines], _⟩ :=
    .tail (.tail (.tail .refl rfl) rfl) rfl
  refine ⟨[], [], _, _, hfirst, .head rfl (.single rfl), ?_⟩
  exact (rules_stop hitems againParser).2.1 .newlines [] [] _ _ hfirst (.head rfl (.single rfl))

end Again

end TeenyLang.Parser
