import TeenyLang.Proofs.AgendaRuns
import TeenyLang.Proofs.SpelledSource

set_option autoImplicit false

/-!
# Where the end of the input is met

The text of a source ends with a newline, so the token before the end of the input is a newline.
Wherever the rules move on they have seen the token they leave, and only behind a newline can they
find the end. The spots at which that can be are those between statements (`Sound.between`), and
only in front of a statement of a block is the end of the input what a diagnostic has found
(`found_of_performs`).
-/
namespace TeenyLang

def Cause.found? : Cause → Option String
  | unexpectedToken found _ | missingComparison found | invalidStatement found => some found
  | _ => none

theorem Cause.stage_of_found {cause : Cause} {found : String} (h : cause.found? = some found) :
    cause.stage = some .syntactic := by
  cases cause <;> first | rfl | cases h

/-! ## The last tokens of a source -/

namespace Lexical

/-- A lexeme at the end of a text that ends with a newline is that newline. -/
theorem Spells.newline_of_closed {kind : Kind} {text : String} {lexeme : List Char}
    (h : Spells kind text lexeme) (hclosed : Closed lexeme) : kind = .newline := by
  rcases hclosed with hnil | hlast
  · exact absurd hnil h.ne_nil
  · rcases h.chars with ⟨hkind, -⟩ | ⟨-, hchars⟩
    · exact hkind
    · exact absurd rfl (hchars '\n' (List.mem_of_getLast? hlast)).1

/-- Only a string can hold a space, and it is described with its quotes. -/
theorem Spells.description_ne {t : Token} {lexeme : List Char} (h : Spells t.kind t.text lexeme) :
    t.description ≠ "end of input" := by
  intro hdescription
  have htext (hkind : t.kind ≠ .string) : t.text ≠ "end of input" := by
    intro htext
    refine hkind (h.string_of_blank ?_)
    rw [← h.eq_written, written, if_neg hkind, htext]
    exact (by decide : ' ' ∈ "end of input".toList)
  cases hkind : t.kind <;> simp only [Token.description, hkind] at hdescription
  case endOfInput =>
    rw [hkind] at h
    cases h
  case newline => exact absurd hdescription (by decide)
  case string =>
    have hhead := congrArg (fun text => text.toList.head?) hdescription
    simp at hhead
  all_goals exact htext (by simp [hkind]) hdescription

end Lexical

/-- A token that is described as the end of the input is the end of the input. -/
def Token.Clear (t : Token) : Prop :=
  t.description = "end of input" → t.kind = .endOfInput

/-- The tokens ahead are those of a text that ends with a newline: only a newline stands before
the end of the input. -/
structure Lookahead.Ready (l : Lookahead Scanner) : Prop where
  closed : Lexical.Closed l.supply.cursor.rest
  peek_of_nil : l.supply.cursor.rest = [] → l.peek.kind = .newline ∨ l.peek.kind = .endOfInput
  current_of_end : l.peek.kind = .endOfInput →
    l.current.kind = .newline ∨ l.current.kind = .endOfInput
  current : l.current.Clear
  peek : l.peek.Clear

namespace Lookahead.Ready

theorem pull {l : Lookahead Scanner} (h : l.Ready) {t : Token} {s : Scanner}
    (hpull : TokenSupply.pull l.supply = .ok t s) : Ready ⟨s, l.peek, t⟩ := by
  have hnext : Scanner.next l.supply = .ok t s := hpull
  by_cases hend : t.kind = .endOfInput
  · have hrest := Lexical.rest_of_endOfInput hnext hend h.closed
    have hnil : s.cursor.rest = [] := by
      have hle := Scanner.next_le hnext
      rw [hrest] at hle
      exact List.eq_nil_of_length_eq_zero (Nat.le_zero.1 hle)
    exact ⟨.inl hnil, fun _ => .inr hend, fun _ => h.peek_of_nil hrest, h.peek, fun _ => hend⟩
  · obtain ⟨gap, lexeme, htext, -, hstands⟩ := Lexical.lexeme_of_next hnext hend h.closed
    have hclosed := h.closed
    rw [htext] at hclosed
    refine ⟨hclosed.suffix, fun hnil => .inl ?_, fun h => absurd h hend, h.peek,
      fun h => absurd h hstands.spells.description_ne⟩
    rw [hnil, List.append_nil] at hclosed
    exact hstands.spells.newline_of_closed hclosed.suffix

theorem passes {l m : Lookahead Scanner} {ts : List Token} (hl : l.Ready) (h : Passes l ts m) :
    m.Ready := by
  induction h with
  | nil => exact hl
  | cons pull _ ih => exact ih (hl.pull pull)

end Lookahead.Ready

theorem Parser.ready_ofSource {source file : String} {precision : Int} {p : Parser Scanner}
    (h : ofSource source file precision = .ok p) : p.lookahead.Ready := by
  have hunread : unread.kind ≠ .endOfInput := by decide
  have hclear : unread.Clear := fun h => absurd h (by decide)
  refine .passes ⟨Lexical.closed_source source file, fun hnil => ?_, fun h => absurd h hunread,
    hclear, hclear⟩ (start_eq_ok h).1
  simp [Scanner.start, Cursor.start] at hnil

/-! ## What an agenda asks of the tokens -/

namespace Parser

def Spot.Between : Spot → Prop
  | leading | newlines | block _ => True
  | _ => False

def Spot.Nests : Spot → Prop
  | block _ | statement => True
  | _ => False

/-- Which kinds of token can be current when all that a spot has planned is done. -/
def Spot.Leaves (spot : Spot) (kind : Kind) : Prop :=
  match spot with
  | leading | newlines | statement => True
  | block terminator => kind = terminator
  | expect required => required = .newline ∨ kind ≠ .endOfInput
  | _ => kind ≠ .endOfInput

/-- An act can be done at a token of the kind `kind` and leaves one for which `rest` holds. Only a
newline is moved on from to the end of the input, and only where statements are read, which is said
by `nests`, can a diagnostic name it. -/
def Act.Suits (nests : Prop) (rest : Kind → Prop) (kind : Kind) : Act → Prop
  | advance => kind ≠ .endOfInput ∧
      ∀ next : Kind, (next = .endOfInput → kind = .newline) → rest next
  | failAt _ cause => cause.found? ≠ some "end of input"
  | throw _ => nests
  | _ => rest kind

/-- The items can be done from a token of the kind `kind`, with the end of the input at no spot but
those between statements, and end at a token that `after` allows. -/
def Suits (nests : Prop) (after : Kind → Prop) : List Item → Kind → Prop
  | [] => after
  | .act act :: items => fun kind => act.Suits nests (Suits nests after items) kind
  | .look spot :: items => fun kind => (kind = .endOfInput → spot.Between) ∧
      (spot.Nests → nests) ∧ ∀ next, spot.Leaves next → Suits nests after items next

section Suits

variable {nests : Prop} {after later : Kind → Prop} {items more : List Item} {kind : Kind}

theorem Act.Suits.imp {rest rest' : Kind → Prop} {act : Act} (h : act.Suits nests rest kind)
    (himp : ∀ next, rest next → rest' next) : act.Suits nests rest' kind := by
  cases act
  case advance => exact ⟨h.1, fun next hnext => himp next (h.2 next hnext)⟩
  case failAt | throw => exact h
  all_goals exact himp kind h

theorem Suits.append (h : Suits nests after items kind)
    (hmore : ∀ next, after next → Suits nests later more next) :
    Suits nests later (items ++ more) kind := by
  induction items generalizing kind with
  | nil => exact hmore kind h
  | cons item items ih =>
    cases item with
    | act act => exact Act.Suits.imp h fun next hnext => ih hnext
    | look spot =>
      obtain ⟨hbetween, hnests, hnext⟩ := h
      exact ⟨hbetween, hnests, fun next hleaves => ih (hnext next hleaves)⟩

abbrev anywhere : Kind → Prop := fun _ => True

abbrev inside : Kind → Prop := fun kind => kind ≠ .endOfInput

/-- Moving on from a token within a line. -/
theorem suits_advance (h : inside kind) (hline : kind ≠ .newline)
    (hrest : ∀ next, inside next → Suits nests after items next) :
    Suits nests after (.act .advance :: items) kind :=
  ⟨h, fun next hnext => hrest next fun hend => hline (hnext hend)⟩

theorem suits_expect {required : Kind} (h : inside kind) (hline : required ≠ .newline)
    (hrest : ∀ next, inside next → Suits nests after items next) :
    Suits nests after (.look (.expect required) :: items) kind :=
  ⟨h.elim, False.elim, fun next hleaves => hrest next (hleaves.resolve_left hline)⟩

theorem suits_newlineItems (h : inside kind) : Suits nests anywhere newlineItems kind :=
  ⟨h.elim, False.elim, fun _ _ => ⟨fun _ => trivial, False.elim, fun _ _ => trivial⟩⟩

theorem suits_unaryItems (h : inside kind) : Suits nests inside unaryItems kind :=
  ⟨h.elim, False.elim, fun _ h => ⟨h.elim, False.elim, fun _ h => h⟩⟩

theorem suits_operators (level : Precedence) (h : inside kind) :
    Suits nests inside [.look (.operators level)] kind :=
  ⟨h.elim, False.elim, fun _ h => h⟩

theorem suits_termItems (h : inside kind) : Suits nests inside termItems kind :=
  (suits_unaryItems h).append fun _ h => suits_operators .products h

theorem suits_expressionItems (h : inside kind) : Suits nests inside expressionItems kind :=
  (suits_termItems h).append fun _ h => suits_operators .sums h

theorem suits_comparisonItems (h : inside kind) : Suits nests inside comparisonItems kind :=
  (suits_expressionItems h).append fun _ h => ⟨h.elim, False.elim, fun _ h => h⟩

theorem suits_printed (h : inside kind) : Suits nests inside [.look .printed] kind :=
  ⟨h.elim, False.elim, fun _ h => h⟩

theorem suits_naming {title : String} {naming : Naming} (h : inside kind)
    (hline : kind ≠ .newline) : Suits nests anywhere (namingItems title naming) kind :=
  suits_advance h hline fun _ h => ⟨h.elim, False.elim, fun _ h => suits_newlineItems h⟩

theorem suits_headItems {title code : String} {follower : Keyword} (h : inside kind)
    (hline : kind ≠ .newline) : Suits nests anywhere (headItems title code follower) kind :=
  suits_advance h hline fun _ h => (suits_comparisonItems h).append fun _ h =>
    suits_expect h (by simp) fun _ h => (suits_newlineItems h).append fun _ _ => trivial

theorem suits_openingItems {token : Token} (hclear : token.Clear) (h : inside token.kind) :
    Suits nests anywhere (openingItems token) token.kind := by
  have hfail : Suits nests anywhere
      [.act (.failAt token (.invalidStatement token.description))] token.kind :=
    fun hfound => h (hclear (Option.some.inj hfound))
  unfold openingItems
  cases hkind : token.kind <;> rw [hkind] at h hfail
  case keyword word =>
    have hline : Kind.keyword word ≠ .newline := by simp
    cases word
    case PRINT =>
      exact suits_advance h hline fun _ h => (suits_printed h).append fun _ h =>
        suits_newlineItems h
    case LABEL | GOTO | LET | INPUT => exact suits_naming h hline
    case IF | WHILE => exact suits_headItems h hline
    all_goals exact hfail
  all_goals exact hfail

theorem suits_closingItems {word : Keyword} :
    Suits nests anywhere (closingItems (.keyword word)) (.keyword word) :=
  suits_expect (by simp) (by simp) fun _ h => suits_newlineItems h

theorem suits_items (naming : Naming) (token : Token) (h : inside kind) :
    Suits nests inside (naming.items token) kind := by
  cases naming with
  | label | goto | input => exact h
  | assign =>
    exact suits_expect h (by simp) fun _ h => (suits_expressionItems h).append fun _ h => h

theorem suits_operandItems (level : Precedence) (h : inside kind) :
    Suits nests inside level.operandItems kind := by
  cases level with
  | products => exact suits_unaryItems h
  | sums => exact suits_termItems h
  | comparisons => exact suits_expressionItems h

end Suits

theorem blockEnd_cases (kind : Kind) :
    blockEnd kind = none ∨ ∃ word, blockEnd kind = some (.keyword word) := by
  unfold blockEnd
  split
  · exact .inr ⟨_, rfl⟩
  · exact .inr ⟨_, rfl⟩
  · exact .inl rfl

theorem Precedence.test_newline (level : Precedence) : level.test .newline = false := by
  cases level <;> rfl

variable {σ : Type}

/-- What a spot plans can be done, and leaves a token as the spot says. -/
theorem Spot.suits_plan {nests : Prop} {spot : Spot} {p : Parser σ} (hclear : p.current.Clear)
    (hbetween : p.current.kind = .endOfInput → spot.Between) (hnests : spot.Nests → nests) :
    Suits nests spot.Leaves (spot.plan p) p.current.kind := by
  -- a diagnostic that names the current token does not name the end of the input
  have hfail (hinside : inside p.current.kind) :
      some p.current.description ≠ some "end of input" :=
    fun hfound => hinside (hclear (Option.some.inj hfound))
  cases spot
  case leading | newlines =>
    rw [Spot.plan]
    split
    · next hline =>
      exact ⟨by simp [hline], fun _ _ => ⟨fun _ => trivial, False.elim, fun _ h => h⟩⟩
    · exact trivial
  case block terminator =>
    rw [Spot.plan]
    split
    · next hhere => exact hhere
    split
    · exact hnests trivial
    · next hmore =>
      exact ⟨fun hend => absurd hend hmore, fun _ => hnests trivial,
        fun _ _ => ⟨fun _ => trivial, fun _ => hnests trivial, fun _ h => h⟩⟩
  case statement =>
    refine (suits_openingItems hclear hbetween).append fun _ _ => ?_
    rcases blockEnd_cases p.current.kind with hnone | ⟨word, hsome⟩
    · rw [hnone]
      exact trivial
    · rw [hsome]
      refine ⟨fun _ => trivial, fun _ => hnests trivial, fun next hnext => ?_⟩
      obtain rfl : next = .keyword word := hnext
      exact suits_closingItems
  case expect kind =>
    rw [Spot.plan]
    split
    · next hkind =>
      refine ⟨hbetween, fun next hnext => ?_⟩
      by_cases hline : kind = .newline
      · exact .inl hline
      · exact .inr fun hend => hline (hkind ▸ hnext hend)
    · exact hfail hbetween
  case name naming =>
    rw [Spot.plan]
    split
    · next hkind =>
      exact suits_advance hbetween (by simp [hkind]) fun _ h => suits_items naming p.current h
    · exact hfail hbetween
  case printed =>
    rw [Spot.plan]
    split
    · next hkind => exact suits_advance hbetween (by simp [hkind]) fun _ h => h
    · exact (suits_expressionItems hbetween).append fun _ h => h
  case sign =>
    rw [Spot.plan]
    split
    · next hsign =>
      refine suits_advance hbetween (fun hline => ?_) fun _ h => h
      rw [hline] at hsign
      exact absurd hsign (by decide)
    · exact hbetween
  case operand =>
    have hadvance (hline : p.current.kind ≠ .newline) :
        Suits nests inside [.act .advance] p.current.kind :=
      suits_advance hbetween hline fun _ h => h
    have hother := hfail hbetween
    rw [Spot.plan]
    cases hkind : p.current.kind <;> rw [hkind] at hadvance
    case number => exact hadvance (by simp)
    case identifier =>
      by_cases hknown : p.variableNames.contains p.current.text = true
      · simp only [hknown, ↓reduceIte]
        exact hadvance (by simp)
      · simp only [hknown, Bool.false_eq_true, ↓reduceIte]
        exact fun hfound => by simp [Cause.found?] at hfound
    all_goals exact hother
  case operators level =>
    rw [Spot.plan]
    split
    · next htest =>
      refine suits_advance hbetween (fun hline => ?_) fun _ h =>
        (suits_operandItems level h).append fun _ h => suits_operators level h
      rw [hline, level.test_newline] at htest
      cases htest
    · exact hbetween
  case comparison =>
    rw [Spot.plan]
    split
    · exact suits_operators .comparisons hbetween
    · exact hfail hbetween

/-! ## The steps keep to it -/

/-- The agenda of a configuration can be done with the tokens that are ahead. -/
structure Sound (nests : Prop) (c : Config Scanner) : Prop where
  ready : c.parser.lookahead.Ready
  suits : Suits nests anywhere c.agenda c.parser.current.kind

theorem Sound.of_lookahead {nests : Prop} {agenda : List Item} {p q : Parser Scanner}
    (h : Sound nests ⟨agenda, p⟩) (hsame : p.lookahead = q.lookahead) :
    Sound nests ⟨agenda, q⟩ := by
  have hcurrent : p.current = q.current := congrArg Lookahead.current hsame
  have hsuits : Suits nests anywhere agenda p.current.kind := h.suits
  exact ⟨hsame ▸ h.ready, hcurrent ▸ hsuits⟩

theorem Sound.act {nests : Prop} {act : Act} {agenda : List Item} {p q : Parser Scanner}
    (h : Sound nests ⟨.act act :: agenda, p⟩) (hrun : act.run p = .ok () q) :
    Sound nests ⟨agenda, q⟩ := by
  obtain ⟨hready, hsuits⟩ := h
  cases act
  case advance =>
    obtain ⟨hmore, hnext⟩ := hsuits
    obtain ⟨t, hadvance⟩ := discard_eq_ok hrun
    obtain ⟨-, hpass, -⟩ := advance_eq_ok hadvance
    refine ⟨hready.passes hpass, hnext _ fun hend => ?_⟩
    -- the token that was ahead of the end of the input
    rw [current_of_advance hadvance] at hend
    exact (hready.current_of_end hend).resolve_right hmore
  case failAt => cases hrun
  case throw => cases hrun
  all_goals
    exact Sound.of_lookahead ⟨hready, hsuits⟩ ((Act.still (by simp)).lookahead_eq hrun)

theorem Sound.moves {nests : Prop} {c c' : Config Scanner} (h : c.Moves c')
    (hc : Sound nests c) : Sound nests c' := by
  cases h with
  | act hrun => exact hc.act hrun
  | look spot agenda p =>
    obtain ⟨hbetween, hnests, hrest⟩ := hc.suits
    exact ⟨hc.ready, (Spot.suits_plan hc.ready.current hbetween hnests).append hrest⟩

theorem Sound.leads {nests : Prop} {c c' : Config Scanner} (h : Sound nests c)
    (hleads : Leads c c') : Sound nests c' :=
  hleads.keeps (Sound nests) (fun _ _ => Sound.moves) h

/-- The end of the input is met between statements only. -/
theorem Sound.between {nests : Prop} {spot : Spot} {agenda : List Item} {p : Parser Scanner}
    (h : Sound nests ⟨.look spot :: agenda, p⟩) (hend : p.current.kind = .endOfInput) :
    spot.Between :=
  h.suits.1 hend

theorem sound_program {source file : String} {precision : Int} {p : Parser Scanner}
    (h : ofSource source file precision = .ok p) : Sound True ⟨programItems, p⟩ :=
  ⟨ready_ofSource h, fun _ => trivial, False.elim, fun _ _ =>
    ⟨fun _ => trivial, fun _ => trivial, fun _ _ => trivial⟩⟩

/-- Among the items of a statement without its block none fails at the end of the input. -/
theorem found_of_error {act : Act} {agenda : List Item} {p q : Parser Scanner} {d : Diagnostic}
    (h : Sound False ⟨.act act :: agenda, p⟩) (hrun : act.run p = .error d q) :
    d.cause.found? ≠ some "end of input" := by
  have hsuits := h.suits
  have hraises := Act.raises hrun
  generalize d.cause = cause at hraises
  cases hraises with
  | advance hstage =>
    intro hfound
    cases hstage.symm.trans (Cause.stage_of_found hfound)
  | failAt => exact hsuits
  | throw => exact hsuits.elim
  | declareLabel | checkLabels =>
    intro hfound
    cases hfound

theorem found_of_performs {α : Type} {items : List Item} {rule : Rule Scanner α}
    {p q : Parser Scanner} {d : Diagnostic} (h : Performs items p (rule p))
    (hready : p.lookahead.Ready) (hsuits : Suits False anywhere items p.current.kind)
    (hrun : rule p = .error d q) : d.cause.found? ≠ some "end of input" := by
  obtain ⟨act, left, r, hleads, hfails⟩ := h.failing hrun
  have hsound : Sound False ⟨items, p⟩ := ⟨hready, hsuits⟩
  exact found_of_error (hsound.leads hleads) hfails

end Parser

end TeenyLang
