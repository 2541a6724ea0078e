import TeenyLang.Proofs.Grammar
import Mathlib.Computability.Language
import Mathlib.Order.CompletePartialOrder

set_option autoImplicit false

/-!
# The grammar as languages of tokens

Each symbol of the grammar has the language of the token sequences of its trees. These languages are
closed under the right-hand sides of the productions, which are written with products, sums and
stars. Whether a sequence is in one of them depends on the kinds of its tokens only (`Recasts`).
-/
namespace TeenyLang.Grammar

open scoped Computability

def oneOf (kinds : List Kind) : Language Token :=
  Set.range fun t : Leaf kinds => [t.1]

def spelt {α : Type} (tokens : α → List Token) : Language Token :=
  Set.range tokens

abbrev unaryTexts : Language Token := spelt Unary.tokens

abbrev termTexts : Language Token := spelt Term.tokens

abbrev expressionTexts : Language Token := spelt Expression.tokens

abbrev comparisonTexts : Language Token := spelt Comparison.tokens

abbrev newlineTexts : Language Token := spelt Newlines.tokens

abbrev printedTexts : Language Token := spelt Printed.tokens

abbrev statementTexts : Language Token := spelt Statement.tokens

abbrev programTexts : Language Token := spelt Program.tokens

theorem mem_oneOf {kinds : List Kind} {t : Token} (h : t.kind ∈ kinds) : [t] ∈ oneOf kinds :=
  ⟨⟨t, h⟩, rfl⟩

/-! ## Productions -/

theorem exists_flatMap_of_kstar {α : Type} {tokens : α → List Token} {ts : List Token}
    (h : ts ∈ (spelt tokens)∗) : ∃ items : List α, items.flatMap tokens = ts := by
  obtain ⟨pieces, rfl, hpieces⟩ := Language.mem_kstar.1 h
  induction pieces with
  | nil => exact ⟨[], rfl⟩
  | cons piece pieces ih =>
    obtain ⟨⟨a, rfl⟩, hrest⟩ := List.forall_mem_cons.1 hpieces
    obtain ⟨items, hitems⟩ := ih hrest (Language.join_mem_kstar hrest)
    exact ⟨a :: items, by rw [List.flatMap_cons, hitems, List.flatten_cons]⟩

theorem primary_le :
    oneOf [.number] + oneOf [.identifier] ≤ spelt fun x : Primary => [x.token] := by
  rintro ts (⟨t, rfl⟩ | ⟨t, rfl⟩)
  · exact ⟨.number t, rfl⟩
  · exact ⟨.ident t, rfl⟩

theorem unary_le :
    (1 + oneOf sumOperators) * (oneOf [.number] + oneOf [.identifier]) ≤ unaryTexts := by
  intro ts hts
  obtain ⟨xs, hxs, ys, hys, rfl⟩ := Language.mem_mul.1 hts
  obtain ⟨x, rfl⟩ := primary_le hys
  rcases hxs with hxs | ⟨sign, rfl⟩
  · obtain rfl := (Language.mem_one xs).1 hxs
    exact ⟨⟨none, x⟩, rfl⟩
  · exact ⟨⟨some sign, x⟩, rfl⟩

theorem link_le {operators : List Kind} {α : Type} (tokens : α → List Token) :
    oneOf operators * spelt tokens ≤
      spelt (linkTokens tokens : Leaf operators × α → List Token) := by
  intro ts hts
  obtain ⟨_, ⟨operator, rfl⟩, _, ⟨a, rfl⟩, rfl⟩ := Language.mem_mul.1 hts
  exact ⟨(operator, a), rfl⟩

theorem chain_le {operators : List Kind} {α : Type} (tokens : α → List Token) :
    spelt tokens * (oneOf operators * spelt tokens)∗ ≤
      spelt (Chain.tokens tokens : Chain operators α → List Token) := by
  intro ts hts
  obtain ⟨_, ⟨head, rfl⟩, links, hlinks, rfl⟩ := Language.mem_mul.1 hts
  obtain ⟨tail, rfl⟩ := exists_flatMap_of_kstar (kstar_mono (link_le tokens) hlinks)
  exact ⟨⟨head, tail⟩, rfl⟩

theorem comparison_le :
    expressionTexts * (oneOf comparisonOperators * expressionTexts *
      (oneOf comparisonOperators * expressionTexts)∗) ≤ comparisonTexts := by
  intro ts hts
  obtain ⟨_, ⟨head, rfl⟩, _, hrest, rfl⟩ := Language.mem_mul.1 hts
  obtain ⟨_, hfirst, links, hlinks, rfl⟩ := Language.mem_mul.1 hrest
  obtain ⟨link, rfl⟩ := link_le Expression.tokens hfirst
  obtain ⟨tail, rfl⟩ := exists_flatMap_of_kstar (kstar_mono (link_le Expression.tokens) hlinks)
  exact ⟨⟨⟨head, link :: tail⟩, List.cons_ne_nil _ _⟩, rfl⟩

theorem exists_leaves_of_kstar {kinds : List Kind} {ts : List Token} (h : ts ∈ (oneOf kinds)∗) :
    ∃ leaves : List (Leaf kinds), leaves.map Subtype.val = ts := by
  obtain ⟨leaves, rfl⟩ := exists_flatMap_of_kstar h
  exact ⟨leaves, List.map_eq_flatMap⟩

theorem newlines_le : oneOf [.newline] * (oneOf [.newline])∗ ≤ newlineTexts := by
  intro ts hts
  obtain ⟨_, ⟨first, rfl⟩, _, hmore, rfl⟩ := Language.mem_mul.1 hts
  obtain ⟨more, rfl⟩ := exists_leaves_of_kstar hmore
  exact ⟨⟨first, more⟩, rfl⟩

theorem printed_le : oneOf [.string] + expressionTexts ≤ printedTexts := by
  rintro ts (⟨t, rfl⟩ | ⟨e, rfl⟩)
  · exact ⟨.text t, rfl⟩
  · exact ⟨.value e, rfl⟩

theorem print_le :
    oneOf [.keyword .PRINT] * printedTexts * newlineTexts ≤ statementTexts := by
  intro ts hts
  obtain ⟨_, hline, _, ⟨ending, rfl⟩, rfl⟩ := Language.mem_mul.1 hts
  obtain ⟨_, ⟨word, rfl⟩, _, ⟨printed, rfl⟩, rfl⟩ := Language.mem_mul.1 hline
  exact ⟨.print word printed ending, by rw [Statement.tokens]; rfl⟩

/-- The statements of a word and a name. -/
theorem naming_le {word : Keyword} (h : word ∈ [.LABEL, .GOTO, .INPUT]) :
    oneOf [.keyword word] * oneOf [.identifier] * newlineTexts ≤ statementTexts := by
  intro ts hts
  obtain ⟨_, hline, _, ⟨ending, rfl⟩, rfl⟩ := Language.mem_mul.1 hts
  obtain ⟨_, ⟨first, rfl⟩, _, ⟨name, rfl⟩, rfl⟩ := Language.mem_mul.1 hline
  simp only [List.mem_cons, List.not_mem_nil, or_false] at h
  rcases h with rfl | rfl | rfl
  · exact ⟨.label first name ending, by rw [Statement.tokens]; rfl⟩
  · exact ⟨.goto first name ending, by rw [Statement.tokens]; rfl⟩
  · exact ⟨.input first name ending, by rw [Statement.tokens]; rfl⟩

theorem assign_le :
    oneOf [.keyword .LET] * (oneOf [.identifier] * (oneOf [.operator .assign] *
      expressionTexts)) * newlineTexts ≤ statementTexts := by
  intro ts hts
  obtain ⟨_, hline, _, ⟨ending, rfl⟩, rfl⟩ := Language.mem_mul.1 hts
  obtain ⟨_, ⟨word, rfl⟩, _, hnamed, rfl⟩ := Language.mem_mul.1 hline
  obtain ⟨_, ⟨name, rfl⟩, _, hassigned, rfl⟩ := Language.mem_mul.1 hnamed
  obtain ⟨_, ⟨equals, rfl⟩, _, ⟨value, rfl⟩, rfl⟩ := Language.mem_mul.1 hassigned
  exact ⟨.assign word name equals value ending, by rw [Statement.tokens]; rfl⟩

abbrev headTexts (form : BlockForm) : Language Token :=
  oneOf [.keyword form.opener] * (comparisonTexts *
    (oneOf [.keyword form.follower] * newlineTexts))

abbrev closingTexts (form : BlockForm) : Language Token :=
  oneOf [.keyword form.closer] * newlineTexts

theorem block_le (form : BlockForm) :
    headTexts form * (statementTexts∗ * closingTexts form) ≤ statementTexts := by
  intro ts hts
  obtain ⟨_, hhead, _, hrest, rfl⟩ := Language.mem_mul.1 hts
  obtain ⟨_, ⟨word, rfl⟩, _, htested, rfl⟩ := Language.mem_mul.1 hhead
  obtain ⟨_, ⟨condition, rfl⟩, _, hopened, rfl⟩ := Language.mem_mul.1 htested
  obtain ⟨_, ⟨follower, rfl⟩, _, ⟨gap, rfl⟩, rfl⟩ := Language.mem_mul.1 hopened
  obtain ⟨_, hbody, _, hclosing, rfl⟩ := Language.mem_mul.1 hrest
  obtain ⟨_, ⟨closer, rfl⟩, _, ⟨ending, rfl⟩, rfl⟩ := Language.mem_mul.1 hclosing
  obtain ⟨body, rfl⟩ := exists_flatMap_of_kstar hbody
  refine ⟨.block form word condition follower gap body closer ending, ?_⟩
  rw [Statement.tokens, bodyTokens_eq_flatMap]
  simp

theorem program_le : (oneOf [.newline])∗ * statementTexts∗ ≤ programTexts := by
  intro ts hts
  obtain ⟨_, hleading, _, hbody, rfl⟩ := Language.mem_mul.1 hts
  obtain ⟨leading, rfl⟩ := exists_leaves_of_kstar hleading
  obtain ⟨body, rfl⟩ := exists_flatMap_of_kstar hbody
  exact ⟨⟨leading, body⟩, by rw [Program.tokens, bodyTokens_eq_flatMap]⟩

/-! ## No language is empty -/

class Productive (L : Language Token) : Prop where
  exists_mem : ∃ ts, ts ∈ L

namespace Productive

variable {L M : Language Token}

theorem mono (hle : L ≤ M) [h : Productive L] : Productive M :=
  ⟨h.exists_mem.imp fun _ hts => hle hts⟩

instance one : Productive 1 :=
  ⟨[], Language.nil_mem_one⟩

instance star : Productive L∗ :=
  ⟨[], Language.nil_mem_kstar L⟩

instance mul [hL : Productive L] [hM : Productive M] : Productive (L * M) := by
  obtain ⟨xs, hxs⟩ := hL.exists_mem
  obtain ⟨ys, hys⟩ := hM.exists_mem
  exact ⟨xs ++ ys, Language.append_mem_mul hxs hys⟩

instance add [Productive L] : Productive (L + M) :=
  mono le_self_add

instance oneOf_cons (kind : Kind) (kinds : List Kind) : Productive (oneOf (kind :: kinds)) :=
  ⟨_, mem_oneOf (t := ⟨kind, "", ⟨"", 0, 0⟩⟩) (List.mem_cons_self)⟩

instance unary : Productive unaryTexts :=
  mono unary_le

theorem chain {operators : List Kind} {α : Type} (tokens : α → List Token)
    [Productive (spelt tokens)] :
    Productive (spelt (Chain.tokens tokens : Chain operators α → List Token)) :=
  mono (chain_le tokens)

instance term : Productive termTexts :=
  chain Unary.tokens

instance expression : Productive expressionTexts :=
  chain Term.tokens

instance newlines : Productive newlineTexts :=
  mono newlines_le

instance printed : Productive printedTexts :=
  mono printed_le

instance statement : Productive statementTexts :=
  mono print_le

end Productive

/-! ## Kinds decide -/

/-- Every sequence with the kinds of `ts` is in the language. -/
def Recasts (L : Language Token) (ts : List Token) : Prop :=
  ∀ us : List Token, us.map Token.kind = ts.map Token.kind → us ∈ L

namespace Recasts

variable {L M : Language Token}

theorem mono (hle : L ≤ M) {ts : List Token} (h : Recasts L ts) : Recasts M ts :=
  fun us hus => hle (h us hus)

theorem append {xs ys : List Token} (hx : Recasts L xs) (hy : Recasts M ys) :
    Recasts (L * M) (xs ++ ys) := by
  intro us hus
  rw [List.map_append] at hus
  obtain ⟨us₁, us₂, rfl, hus₁, hus₂⟩ := List.map_eq_append_iff.1 hus
  exact Language.append_mem_mul (hx us₁ hus₁) (hy us₂ hus₂)

theorem nil : Recasts 1 [] := by
  intro us hus
  exact (Language.mem_one us).2 (List.map_eq_nil_iff.1 hus)

theorem flatMap {ι : Type} {tokens : ι → List Token} {items : List ι}
    (h : ∀ i ∈ items, Recasts L (tokens i)) : Recasts L∗ (items.flatMap tokens) := by
  induction items with
  | nil => exact nil.mono (one_le_kstar)
  | cons i items ih =>
    obtain ⟨hi, hitems⟩ := List.forall_mem_cons.1 h
    exact (hi.append (ih hitems)).mono mul_kstar_le_kstar

theorem leaf {kinds : List Kind} (t : Leaf kinds) : Recasts (oneOf kinds) [t.1] := by
  intro us hus
  obtain ⟨u, rfl, hu⟩ := List.map_eq_singleton_iff.1 hus
  exact mem_oneOf (hu ▸ t.2)

theorem leaves {kinds : List Kind} (ts : List (Leaf kinds)) :
    Recasts (oneOf kinds)∗ (ts.map Subtype.val) := by
  rw [List.map_eq_flatMap]
  exact flatMap fun t _ => leaf t

theorem unary (u : Unary) : Recasts unaryTexts u.tokens := by
  obtain ⟨sign, operand⟩ := u
  have hsign : Recasts (1 + oneOf sumOperators) (sign.map Subtype.val).toList := by
    cases sign with
    | none => exact nil.mono le_self_add
    | some sign => exact (leaf sign).mono le_add_self
  have hoperand : Recasts (oneOf [.number] + oneOf [.identifier]) [operand.token] := by
    cases operand with
    | number t => exact (leaf t).mono le_self_add
    | ident t => exact (leaf t).mono le_add_self
  exact (hsign.append hoperand).mono unary_le

theorem chain {operators : List Kind} {α : Type} {tokens : α → List Token}
    (h : ∀ a, Recasts (spelt tokens) (tokens a)) (c : Chain operators α) :
    Recasts (spelt (Chain.tokens tokens : Chain operators α → List Token)) (c.tokens tokens) :=
  ((h c.head).append (flatMap fun link _ => (leaf link.1).append (h link.2))).mono
    (chain_le tokens)

theorem expression (e : Expression) : Recasts expressionTexts (Expression.tokens e) :=
  chain (chain unary) e

theorem comparison (c : Comparison) : Recasts comparisonTexts (Comparison.tokens c) := by
  obtain ⟨⟨head, tail⟩, hne⟩ := c
  obtain ⟨link, tail, rfl⟩ := List.exists_cons_of_ne_nil hne
  have hlink (link : Leaf comparisonOperators × Expression) :
      Recasts (oneOf comparisonOperators * expressionTexts)
        (linkTokens Expression.tokens link) :=
    (leaf link.1).append (expression link.2)
  have htail : Recasts (oneOf comparisonOperators * expressionTexts)∗
      (tail.flatMap (linkTokens Expression.tokens)) :=
    flatMap fun link _ => hlink link
  exact ((expression head).append ((hlink link).append htail)).mono comparison_le

theorem newlines (n : Newlines) : Recasts newlineTexts n.tokens :=
  ((leaf n.first).append (leaves n.more)).mono newlines_le

theorem printed (x : Printed) : Recasts printedTexts x.tokens := by
  cases x with
  | text t => exact ((leaf t).mono le_self_add).mono printed_le
  | value e => exact ((expression e).mono le_add_self).mono printed_le

theorem statement (s : Statement) : Recasts statementTexts s.tokens := by
  induction s using Statement.induction with
  | print word x ending =>
    rw [Statement.tokens]
    exact (((leaf word).append (printed x)).append (newlines ending)).mono print_le
  | label word name ending | goto word name ending | input word name ending =>
    rw [Statement.tokens]
    exact (((leaf word).append (leaf name)).append (newlines ending)).mono (naming_le (by decide))
  | assign word name equals value ending =>
    rw [Statement.tokens]
    have hline := (leaf word).append ((leaf name).append ((leaf equals).append (expression value)))
    exact (hline.append (newlines ending)).mono assign_le
  | block form word condition follower gap body closer ending ih =>
    have hhead := (leaf word).append
      ((comparison condition).append ((leaf follower).append (newlines gap)))
    have hclosing := (leaf closer).append (newlines ending)
    have hall := (hhead.append ((flatMap ih).append hclosing)).mono (block_le form)
    rw [Statement.tokens, bodyTokens_eq_flatMap]
    simpa using hall

theorem program (P : Program) : Recasts programTexts P.tokens := by
  rw [Program.tokens, bodyTokens_eq_flatMap]
  exact ((leaves P.leading).append (flatMap fun s _ => statement s)).mono program_le

end Recasts

end TeenyLang.Grammar
