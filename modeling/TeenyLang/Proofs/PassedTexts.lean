import TeenyLang.Proofs.AgendaRuns
import TeenyLang.Proofs.StatementRun
import TeenyLang.Proofs.TokenLanguages

set_option autoImplicit false

/-!
# The texts that a rule passes over

Each spot has the language of what the rules may pass over from there on, and an agenda has the
product of the languages of its spots. A plan keeps to the language of its spot (`plan_le`), so
at every point of a run the tokens passed over, and any text of what is still to be done after them,
are a text of the agenda at first. A rule that ends well has passed over a text of its language
(`Performs.passes`). One that ends with a syntactic diagnostic has passed over the beginning of one
and stands at the token that the diagnostic is about (`Performs.viable`).
-/
namespace TeenyLang

open Grammar
open scoped Computability

/-- A supply that fails only where a text is no token. -/
class FailsLexically (σ : Type) [TokenSupply σ] : Prop where
  stage_eq : ∀ {s s' : σ} {d : Diagnostic}, TokenSupply.pull s = .error d s' →
    d.cause.stage = some .lexical

namespace Parser

/-! ## Languages -/

def Naming.texts : Naming → Language Token
  | label | goto | input => 1
  | assign => oneOf [.operator .assign] * expressionTexts

/-- An operator of the level and an operand after it. -/
def Precedence.linkTexts : Precedence → Language Token
  | products => oneOf productOperators * unaryTexts
  | sums => oneOf sumOperators * termTexts
  | comparisons => oneOf comparisonOperators * expressionTexts

@[simp] def Spot.texts : Spot → Language Token
  | leading | newlines => (oneOf [.newline])∗
  | block _ => statementTexts∗
  | statement => statementTexts
  | expect kind => oneOf [kind]
  | name naming => oneOf [.identifier] * naming.texts
  | printed => printedTexts
  | sign => 1 + oneOf sumOperators
  | operand => oneOf [.number] + oneOf [.identifier]
  | operators level => level.linkTexts∗
  | comparison => Precedence.comparisons.linkTexts * Precedence.comparisons.linkTexts∗

@[simp] def Item.texts : Item → Language Token
  | .act _ => 1
  | .look spot => spot.texts

def texts (items : List Item) : Language Token :=
  (items.map Item.texts).prod

/-- The texts of a spot in front of a token. A loop over operators is gone through again if the
token is one of its operators. -/
@[simp] def Spot.textsAt (token : Token) : Spot → Language Token
  | operators level =>
    if level.test token.kind then level.linkTexts * level.linkTexts∗ else 1
  | spot => spot.texts

/-- The texts of an agenda in front of a token. A move goes over this token, and nothing comes after
an act that fails. -/
@[simp] def textsAt (token : Token) : List Item → Language Token
  | [] => 1
  | .look spot :: rest => spot.textsAt token * texts rest
  | .act act :: rest =>
    match act with
    | .advance => oneOf [token.kind] * texts rest
    | .failAt .. | .throw _ => 0
    | _ => textsAt token rest

@[simp] theorem texts_nil : texts [] = 1 :=
  rfl

@[simp] theorem texts_cons (item : Item) (items : List Item) :
    texts (item :: items) = item.texts * texts items :=
  List.prod_cons

@[simp] theorem texts_append (xs ys : List Item) : texts (xs ++ ys) = texts xs * texts ys := by
  rw [texts, List.map_append, List.prod_append]
  rfl

theorem texts_look (spot : Spot) : texts [.look spot] = spot.texts := by
  simp

/-! ## The order of an agenda -/

@[simp] def Item.passive : Item → Bool
  | .act entry => entry.stays
  | .look _ => true

/-- No move and no failure before a look. -/
def Passive (items : List Item) : Prop :=
  ∀ item ∈ items, item.passive = true

@[simp] theorem passive_nil : Passive [] :=
  List.forall_mem_nil _

@[simp] theorem passive_cons {item : Item} {items : List Item} :
    Passive (item :: items) ↔ item.passive = true ∧ Passive items :=
  List.forall_mem_cons

@[simp] theorem passive_append {xs ys : List Item} :
    Passive (xs ++ ys) ↔ Passive xs ∧ Passive ys :=
  List.forall_mem_append

/-- The agenda moves or fails at most once before it looks, and fails at the token `token`. -/
@[simp] def Tidy (token : Token) : List Item → Prop
  | [] => True
  | .look _ :: rest => Passive rest
  | .act act :: rest =>
    match act with
    | .advance => Passive rest
    | .failAt found _ => found = token
    | .throw d => d.location = some token.location
    | _ => Tidy token rest

theorem tidy_act {act : Act} (h : act.stays = true) (token : Token) (rest : List Item) :
    Tidy token (.act act :: rest) ↔ Tidy token rest := by
  cases act <;> first | rfl | cases h

theorem textsAt_act {act : Act} (h : act.stays = true) (token : Token) (rest : List Item) :
    textsAt token (.act act :: rest) = textsAt token rest := by
  cases act <;> first | rfl | cases h

section Order

variable {token : Token} {items xs ys : List Item}

theorem Tidy.of_passive (h : Passive items) : Tidy token items := by
  induction items with
  | nil => trivial
  | cons item items ih =>
    obtain ⟨hitem, hrest⟩ := passive_cons.1 h
    cases item with
    | look => exact hrest
    | act act => exact (tidy_act hitem token items).2 (ih hrest)

theorem Spot.textsAt_le (spot : Spot) : spot.textsAt token ≤ spot.texts := by
  cases spot with
  | operators level =>
    rw [Spot.textsAt]
    split
    · exact mul_kstar_le_kstar
    · exact one_le_kstar
  | _ => exact le_rfl

theorem textsAt_of_passive (h : Passive items) : textsAt token items ≤ texts items := by
  induction items with
  | nil => exact le_rfl
  | cons item items ih =>
    obtain ⟨hitem, hrest⟩ := passive_cons.1 h
    cases item with
    | look spot => exact mul_le_mul' spot.textsAt_le le_rfl
    | act act =>
      rw [textsAt_act hitem, texts_cons, Item.texts, one_mul]
      exact ih hrest

theorem Tidy.append (hx : Tidy token xs) (hy : Passive ys) : Tidy token (xs ++ ys) := by
  induction xs with
  | nil => exact .of_passive hy
  | cons item xs ih =>
    cases item with
    | look => exact passive_append.2 ⟨hx, hy⟩
    | act act =>
      cases act with
      | advance => exact passive_append.2 ⟨hx, hy⟩
      | failAt | throw => exact hx
      | _ => exact ih hx

theorem textsAt_append (hy : Passive ys) :
    textsAt token (xs ++ ys) ≤ textsAt token xs * texts ys := by
  induction xs with
  | nil =>
    rw [List.nil_append, textsAt, one_mul]
    exact textsAt_of_passive hy
  | cons item xs ih =>
    cases item with
    | look => rw [List.cons_append, textsAt, textsAt, texts_append, mul_assoc]
    | act act =>
      cases act with
      | advance => simp only [List.cons_append, textsAt, texts_append, mul_assoc, le_refl]
      | failAt | throw => simp only [List.cons_append, textsAt, zero_mul, le_refl]
      | _ => exact ih

end Order

/-! ## Plans keep to the languages -/

theorem oneOf_le {kind : Kind} {kinds : List Kind} (h : kind ∈ kinds) :
    oneOf [kind] ≤ oneOf kinds := by
  rintro _ ⟨⟨t, ht⟩, rfl⟩
  obtain rfl := List.mem_singleton.1 ht
  exact mem_oneOf h

theorem newlineItems_le : texts newlineItems ≤ newlineTexts := by
  simpa [newlineItems] using newlines_le

theorem unaryItems_le : texts unaryItems ≤ unaryTexts := by
  simpa [unaryItems] using unary_le

theorem termItems_le : texts termItems ≤ termTexts := by
  simp only [termItems, texts_cons, texts_append, Item.texts, Spot.texts, texts_nil, one_mul,
    mul_one]
  exact (mul_le_mul' unaryItems_le le_rfl).trans (chain_le Unary.tokens)

theorem expressionItems_le : texts expressionItems ≤ expressionTexts := by
  simp only [expressionItems, texts_cons, texts_append, Item.texts, Spot.texts, texts_nil, one_mul,
    mul_one]
  exact (mul_le_mul' termItems_le le_rfl).trans (chain_le Term.tokens)

theorem comparisonItems_le : texts comparisonItems ≤ comparisonTexts := by
  simp only [comparisonItems, texts_cons, texts_append, Item.texts, Spot.texts, texts_nil, one_mul,
    mul_one]
  exact (mul_le_mul' expressionItems_le le_rfl).trans comparison_le

@[simp] theorem passive_newlineItems : Passive newlineItems := by
  simp [newlineItems, Act.stays]

@[simp] theorem passive_unaryItems : Passive unaryItems := by
  simp [unaryItems, Act.stays]

@[simp] theorem passive_termItems : Passive termItems := by
  simp [termItems, Act.stays]

@[simp] theorem passive_expressionItems : Passive expressionItems := by
  simp [expressionItems, Act.stays]

@[simp] theorem passive_comparisonItems : Passive comparisonItems := by
  simp [comparisonItems, Act.stays]

theorem programItems_le : texts programItems ≤ programTexts := by
  simpa [programItems] using program_le

theorem passive_programItems : Passive programItems := by
  simp [programItems, Act.stays]

@[simp] theorem passive_operandItems (level : Precedence) : Passive level.operandItems := by
  cases level <;> simp [Precedence.operandItems]

@[simp] theorem passive_namingItems (naming : Naming) (token : Token) :
    Passive (naming.items token) := by
  cases naming <;> simp [Naming.items, Act.stays]

theorem namingItems_le (naming : Naming) (token : Token) :
    texts (naming.items token) ≤ naming.texts := by
  cases naming with
  | assign =>
    simp only [Naming.items, Naming.texts, texts_cons, texts_append, Item.texts, Spot.texts,
      texts_nil, one_mul, mul_one]
    exact mul_le_mul' le_rfl expressionItems_le
  | _ => simp [Naming.items, Naming.texts]

theorem link_le_linkTexts {level : Precedence} {kind : Kind} (h : level.test kind = true) :
    oneOf [kind] * texts level.operandItems ≤ level.linkTexts := by
  cases level with
  | products =>
    have hkind : kind ∈ productOperators := by simpa [Precedence.test, isFactorOperator] using h
    exact mul_le_mul' (oneOf_le hkind) unaryItems_le
  | sums =>
    have hkind : kind ∈ sumOperators := by simpa [Precedence.test, isSign] using h
    exact mul_le_mul' (oneOf_le hkind) termItems_le
  | comparisons =>
    have hkind : kind ∈ comparisonOperators := (isComparison_iff kind).1 h
    exact mul_le_mul' (oneOf_le hkind) expressionItems_le

theorem tidy_openingItems (token : Token) : Tidy token (openingItems token) := by
  unfold openingItems
  split <;> simp [namingItems, headItems, Act.stays]

theorem headItems_le (form : BlockForm) {token : Token} (h : token.kind = .keyword form.opener)
    (title code : String) :
    textsAt token (headItems title code form.follower) ≤ headTexts form := by
  simp only [headItems, textsAt, texts_cons, texts_append, Item.texts, Spot.texts, texts_nil,
    one_mul, mul_one, h]
  exact mul_le_mul' le_rfl
    (mul_le_mul' comparisonItems_le (mul_le_mul' le_rfl newlineItems_le))

theorem naming_le_statement {token : Token} {word : Keyword} (h : token.kind = .keyword word)
    (title : String) {naming : Naming}
    (hle : oneOf [.keyword word] * (oneOf [.identifier] * naming.texts) * newlineTexts ≤
      statementTexts) :
    textsAt token (namingItems title naming) ≤ statementTexts := by
  simp only [namingItems, textsAt, texts_cons, Item.texts, Spot.texts, h]
  rw [← mul_assoc]
  exact (mul_le_mul' le_rfl newlineItems_le).trans hle

theorem openingItems_of_form (form : BlockForm) {token : Token}
    (h : token.kind = .keyword form.opener) :
    textsAt token (openingItems token) ≤ headTexts form := by
  cases form with
  | ifThen =>
    unfold openingItems
    rw [h]
    exact headItems_le .ifThen h _ _
  | whileRepeat =>
    unfold openingItems
    rw [h]
    exact headItems_le .whileRepeat h _ _

theorem openingItems_of_none {token : Token} (h : blockEnd token.kind = none) :
    textsAt token (openingItems token) ≤ statementTexts := by
  unfold openingItems
  split
  · next hkind =>
    simp only [textsAt, texts_cons, Item.texts, Spot.texts, hkind]
    rw [← mul_assoc]
    exact (mul_le_mul' le_rfl newlineItems_le).trans print_le
  · next hkind =>
    exact naming_le_statement hkind _ (by simpa [Naming.texts] using naming_le (by simp))
  · next hkind =>
    exact naming_le_statement hkind _ (by simpa [Naming.texts] using naming_le (by simp))
  · next hkind => exact naming_le_statement hkind _ assign_le
  · next hkind =>
    exact naming_le_statement hkind _ (by simpa [Naming.texts] using naming_le (by simp))
  · next hkind => simp [hkind, blockEnd] at h
  · next hkind => simp [hkind, blockEnd] at h
  · simp

variable {σ α : Type}

/-- What is planned moves only over a token that has been seen, and fails only at it. -/
theorem tidy_plan (spot : Spot) (p : Parser σ) : Tidy p.current (spot.plan p) := by
  cases spot with
  | statement =>
    refine (tidy_openingItems p.current).append ?_
    split <;> simp [closingItems, Act.stays]
  | printed =>
    rw [Spot.plan]
    split
    · simp [Act.stays]
    · exact .of_passive (by simp [Act.stays])
  | _ =>
    rw [Spot.plan]
    repeat' split
    all_goals simp [Act.stays]

theorem blockEnd_eq_some {kind terminator : Kind} (h : blockEnd kind = some terminator) :
    ∃ form : BlockForm, kind = .keyword form.opener ∧ terminator = .keyword form.closer := by
  unfold blockEnd at h
  split at h <;> cases h
  · exact ⟨.ifThen, rfl, rfl⟩
  · exact ⟨.whileRepeat, rfl, rfl⟩

/-- A plan keeps to the language of its spot. -/
theorem plan_le (spot : Spot) (p : Parser σ) :
    textsAt p.current (spot.plan p) ≤ spot.textsAt p.current := by
  cases spot with
  | leading | newlines =>
    rw [Spot.plan]
    split
    · next hkind => simpa [hkind] using mul_kstar_le_kstar
    · exact one_le_kstar
  | block terminator =>
    rw [Spot.plan]
    repeat' split
    · exact one_le_kstar
    · simp
    · simpa using mul_kstar_le_kstar
  | statement =>
    rw [Spot.plan]
    cases hend : blockEnd p.current.kind with
    | none => simpa using openingItems_of_none hend
    | some terminator =>
      obtain ⟨form, hform, rfl⟩ := blockEnd_eq_some hend
      refine (textsAt_append (by simp [closingItems, Act.stays])).trans ?_
      refine (mul_le_mul' (openingItems_of_form form hform) ?_).trans (block_le form)
      simp only [closingItems, texts_cons, Item.texts, Spot.texts, one_mul]
      exact mul_le_mul' le_rfl (mul_le_mul' le_rfl newlineItems_le)
  | expect kind =>
    rw [Spot.plan]
    split
    · next hkind => simp [hkind]
    · simp
  | name naming =>
    rw [Spot.plan]
    split
    · next hkind =>
      simp only [textsAt, hkind]
      exact mul_le_mul' le_rfl (namingItems_le naming p.current)
    · simp
  | printed =>
    refine le_trans ?_ printed_le
    rw [Spot.plan]
    split
    · next hkind => simp [hkind]
    · refine le_trans (textsAt_of_passive (by simp [Act.stays])) ?_
      simpa using expressionItems_le.trans le_add_self
  | sign =>
    rw [Spot.plan]
    split
    · next hsign =>
      have hkind : p.current.kind ∈ sumOperators := by simpa [isSign] using hsign
      simpa using (oneOf_le hkind).trans le_add_self
    · exact le_self_add
  | operand =>
    rw [Spot.plan]
    repeat' split
    · next hkind => simp [hkind]
    · next hkind _ => simp [hkind]
    · simp
    · simp
  | operators level =>
    rw [Spot.plan, Spot.textsAt]
    split
    · next htest =>
      simp only [textsAt, texts_cons, texts_append, Item.texts, Spot.texts, texts_nil,
        one_mul, mul_one]
      rw [← mul_assoc]
      exact mul_le_mul' (link_le_linkTexts htest) le_rfl
    · exact le_rfl
  | comparison =>
    rw [Spot.plan]
    split
    · next htest => simp [Precedence.test, htest]
    · simp

/-! ## Runs -/

instance (naming : Naming) : Productive naming.texts := by
  cases naming <;> unfold Naming.texts <;> infer_instance

instance (level : Precedence) : Productive level.linkTexts := by
  cases level <;> unfold Precedence.linkTexts <;> infer_instance

instance (spot : Spot) : Productive spot.texts := by
  cases spot <;> unfold Spot.texts <;> infer_instance

instance (items : List Item) : Productive (texts items) := by
  induction items with
  | nil => exact .one
  | cons item items ih =>
    rw [texts_cons]
    cases item <;> unfold Item.texts <;> infer_instance

variable [TokenSupply σ]

/-- From `p` on the tokens `ts` have been passed over. They begin a text of the language, and with
any text of the agenda after them they are one. -/
structure Along (p : Parser σ) (L : Language Token) (ts : List Token) (c : Config σ) : Prop where
  passes : Passes p.lookahead ts c.parser.lookahead
  begins : (∃ us, us ∈ L) → ∃ rest, ts ++ rest ∈ L
  mem : ∀ us ∈ textsAt c.parser.current c.agenda, ts ++ us ∈ L
  tidy : Tidy c.parser.current c.agenda

theorem Along.act {p : Parser σ} {L : Language Token} {ts : List Token} {act : Act}
    {agenda : List Item} {q r : Parser σ} (h : Along p L ts ⟨.act act :: agenda, q⟩)
    (hrun : act.run q = .ok () r) : ∃ ts, Along p L ts ⟨agenda, r⟩ := by
  obtain ⟨hpass, hbegins, hmem, htidy⟩ := h
  by_cases hstays : act.stays = true
  · have hsame := (Act.still (Act.ne_advance hstays)).lookahead_eq hrun
    have hcurrent : q.current = r.current := congrArg Lookahead.current hsame
    change Passes p.lookahead ts q.lookahead at hpass
    rw [textsAt_act hstays, hcurrent] at hmem
    rw [tidy_act hstays, hcurrent] at htidy
    exact ⟨ts, hsame ▸ hpass, hbegins, hmem, htidy⟩
  · obtain rfl := Act.eq_advance_of_ok hrun (by simpa using hstays)
    obtain ⟨t, hadvance⟩ := discard_eq_ok hrun
    obtain ⟨rfl, hnext, -⟩ := advance_eq_ok hadvance
    have hafter (us : List Token) (hus : us ∈ texts agenda) : (ts ++ [q.current]) ++ us ∈ L := by
      rw [List.append_assoc]
      exact hmem _ (Language.append_mem_mul (mem_oneOf (List.mem_singleton.2 rfl)) hus)
    obtain ⟨rest, hrest⟩ := Productive.exists_mem (L := texts agenda)
    exact ⟨ts ++ [q.current], hpass.append hnext, fun _ => ⟨rest, hafter rest hrest⟩,
      fun us hus => hafter us (textsAt_of_passive htidy hus), .of_passive htidy⟩

theorem Along.moves {p : Parser σ} {L : Language Token} {c c' : Config σ} (h : c.Moves c')
    (hc : ∃ ts, Along p L ts c) : ∃ ts, Along p L ts c' := by
  obtain ⟨ts, hc⟩ := hc
  cases h with
  | act hrun => exact hc.act hrun
  | look spot agenda q =>
    obtain ⟨hpass, hbegins, hmem, htidy⟩ := hc
    have hle : textsAt q.current (spot.plan q ++ agenda) ≤
        spot.textsAt q.current * texts agenda :=
      (textsAt_append htidy).trans (mul_le_mul' (plan_le spot q) le_rfl)
    exact ⟨ts, hpass, hbegins, fun us hus => hmem us (hle hus), (tidy_plan spot q).append htidy⟩

theorem Leads.along {items : List Item} {p : Parser σ} {c : Config σ} {L : Language Token}
    (h : Leads ⟨items, p⟩ c) (hitems : Tidy p.current items) (hle : textsAt p.current items ≤ L) :
    ∃ ts, Along p L ts c :=
  h.keeps _ (fun _ _ => Along.moves) ⟨[], .nil _, id, fun _ hus => hle hus, hitems⟩

/-- A rule that ends well has passed over a text of what it had to do. -/
theorem Performs.passes_tidy {items : List Item} {rule : Rule σ α} {p q : Parser σ} {a : α}
    {L : Language Token} (h : Performs items p (rule p)) (hitems : Tidy p.current items)
    (hle : textsAt p.current items ≤ L) (hrun : rule p = .ok a q) :
    ∃ ts ∈ L, Passes p.lookahead ts q.lookahead := by
  obtain ⟨c, hleads, hends⟩ := h.ends
  obtain ⟨ts, hpass, -, hmem, -⟩ := hleads.along hitems hle
  rw [hrun] at hends
  cases hends with
  | done =>
    have hts := hmem [] Language.nil_mem_one
    rw [List.append_nil] at hts
    exact ⟨ts, hts, hpass⟩

theorem Performs.passes {items : List Item} {rule : Rule σ α} {p q : Parser σ} {a : α}
    {L : Language Token} (h : Performs items p (rule p)) (hitems : Passive items)
    (hle : texts items ≤ L) (hrun : rule p = .ok a q) :
    ∃ ts ∈ L, Passes p.lookahead ts q.lookahead :=
  h.passes_tidy (.of_passive hitems) ((textsAt_of_passive hitems).trans hle) hrun

inductive Act.Raises : Act → Cause → Prop
  | advance {cause : Cause} (h : cause.stage = some .lexical) : Raises .advance cause
  | failAt (token : Token) (cause : Cause) : Raises (.failAt token cause) cause
  | throw (d : Diagnostic) : Raises (.throw d) d.cause
  | declareLabel (token : Token) (first : Option Location) :
      Raises (.declareLabel token) (.duplicateLabel token.text first)
  | checkLabels (labels : List String) (places : List (Option Location)) :
      Raises .checkLabels (.undeclaredLabels labels places)

theorem Act.raises [FailsLexically σ] {act : Act} {p q : Parser σ} {d : Diagnostic}
    (hrun : act.run p = .error d q) : act.Raises d.cause := by
  cases act
  case advance =>
    obtain ⟨s, hpull⟩ := advance_eq_error (discard_eq_error hrun)
    exact .advance (FailsLexically.stage_eq hpull)
  case failAt =>
    cases hrun
    exact .failAt _ _
  case throw =>
    cases hrun
    exact .throw _
  case declare name =>
    by_cases hknown : p.variableNames.contains name = true
    · cases (declare_of_known hknown).symm.trans hrun
    · cases (declare_of_new hknown).symm.trans hrun
  case declareLabel token =>
    cases hlookup : p.labels.lookup token.text with
    | none => cases (declareLabel_of_none hlookup).symm.trans hrun
    | some first =>
      cases (declareLabel_of_some hlookup).symm.trans hrun
      exact .declareLabel _ _
  case checkLabels =>
    by_cases hnone : p.missingJumps = []
    · cases (checkLabels_of_none hnone).symm.trans hrun
    · cases (checkLabels_of_some hnone).symm.trans hrun
      exact .checkLabels _ _
  all_goals cases hrun

/-- A syntactic diagnostic is about the token at which the rules stand, and a text begins with the
tokens before it. -/
theorem Performs.viable [FailsLexically σ] {items : List Item} {rule : Rule σ α} {p q : Parser σ}
    {d : Diagnostic} {L : Language Token} (h : Performs items p (rule p)) (hitems : Passive items)
    (hle : texts items ≤ L) (hrun : rule p = .error d q)
    (hd : d.cause.stage = some .syntactic) :
    d.location = some q.current.location ∧
      ∃ ts rest, Passes p.lookahead ts q.lookahead ∧ ts ++ rest ∈ L := by
  obtain ⟨act, left, r, hleads, hfails⟩ := h.failing hrun
  obtain ⟨ts, hpass, hbegins, -, htidy⟩ :=
    hleads.along (.of_passive hitems) ((textsAt_of_passive hitems).trans hle)
  obtain ⟨us, hus⟩ := Productive.exists_mem (L := texts items)
  obtain ⟨rest, hrest⟩ := hbegins ⟨us, hle hus⟩
  have hraises := Act.raises hfails
  cases act with
  | failAt token cause =>
    cases hfails
    obtain rfl : token = q.current := htidy
    exact ⟨rfl, ts, rest, hpass, hrest⟩
  | throw d =>
    cases hfails
    exact ⟨htidy, ts, rest, hpass, hrest⟩
  | _ =>
    generalize d.cause = cause at hraises hd
    cases hraises
    all_goals simp_all [Cause.stage]

end Parser

end TeenyLang
