import TeenyLang.Proofs.AgendaRuns
import TeenyLang.Proofs.SourceTokens
import Mathlib.Data.List.Forall2

set_option autoImplicit false

/-!
# The same rules on like tokens

Two supplies may give tokens of the same kinds and texts at different places, one may give more
newlines in a row than the other, and one may end before the other. A `Pairing` says how two runs
are tied, and its laws ask for two things only: that the runs stay tied when both move over a token
that is neither a newline nor the end, and when both skip newlines. Then the agendas of the two runs
stay alike step by step, with all newlines in a row as one step, and the rules of the grammar end
alike (`Lawful.pairs`), or the first run has come to the end of its tokens.
-/
namespace TeenyLang

/-- The same kind and text, at places that have to do with each other. -/
structure Token.Like (place : Location → Location → Prop) (t u : Token) : Prop where
  kind : t.kind = u.kind
  text : t.text = u.text
  place : place t.location u.location

theorem Token.Like.description {place : Location → Location → Prop} {t u : Token}
    (h : t.Like place u) : t.description = u.description := by
  rw [Token.description, Token.description, h.kind, h.text]

inductive Cause.Like (place : Location → Location → Prop) : Cause → Cause → Prop
  | same (cause : Cause) : Like place cause cause
  | duplicate (label : String) {a b : Location} (h : place a b) :
      Like place (.duplicateLabel label (some a)) (.duplicateLabel label (some b))
  | undeclared (labels : List String) {as bs : List Location} (h : List.Forall₂ place as bs) :
      Like place (.undeclaredLabels labels (as.map some)) (.undeclaredLabels labels (bs.map some))

/-- The diagnostic is about the end of the input: tokens are missing there, or labels. -/
def Diagnostic.AtEnd (d : Diagnostic) : Prop :=
  (∃ expected, d.cause = .unexpectedToken "end of input" expected) ∨
    ∃ labels places, d.cause = .undeclaredLabels labels places

namespace Parser

/-! ## The order of an agenda -/

/-- A token that a rule other than those of newlines may move over. -/
def Passable (kind : Kind) : Prop :=
  kind ≠ .newline ∧ kind ≠ .endOfInput

instance (kind : Kind) : Decidable (Passable kind) :=
  inferInstanceAs (Decidable (_ ∧ _))

theorem passable_of_sign (kind : Kind) (h : isSign kind = true) : Passable kind := by
  simp only [isSign, Bool.or_eq_true, decide_eq_true_eq] at h
  rcases h with rfl | rfl <;> decide

theorem passable_of_factor (kind : Kind) (h : isFactorOperator kind = true) : Passable kind := by
  simp only [isFactorOperator, Bool.or_eq_true, decide_eq_true_eq] at h
  rcases h with rfl | rfl <;> decide

theorem passable_of_comparison (kind : Kind) (h : kind.isComparison = true) : Passable kind := by
  cases kind with
  | operator op => exact ⟨by simp, by simp⟩
  | _ => cases h

/-- At the end of the input the agenda looks no further than to the test of the statements. -/
@[simp] def EndsWell : List Item → Prop
  | [] => True
  | .act (.emitLine _) :: rest => EndsWell rest
  | .act .checkLabels :: rest => EndsWell rest
  | .look (.block terminator) :: rest => terminator ≠ .endOfInput ∨ EndsWell rest
  | _ => False

/-- Every look may be followed by what comes after it: where newlines are skipped, that stands the
end of the input, and a newline that is expected begins newlines that are skipped. -/
@[simp] def Spot.Precedes (rest : List Item) : Spot → Prop
  | leading | newlines | statement => EndsWell rest
  | block terminator => terminator ≠ .endOfInput ∨ EndsWell rest
  | expect kind =>
    kind ≠ .endOfInput ∧ (kind = .newline → ∃ after, rest = .look .newlines :: after)
  | _ => True

/-- No move before a look. -/
@[simp] def Arranged : List Item → Prop
  | [] => True
  | .act act :: rest => act ≠ .advance ∧ Arranged rest
  | .look spot :: rest => spot.Precedes rest ∧ Arranged rest

/-- At most one move before a look, over a token that may be moved over. -/
@[simp] def Ready (kind : Kind) : List Item → Prop
  | .act .advance :: rest => Passable kind ∧ Arranged rest
  | .act _ :: rest => Ready kind rest
  | rest => Arranged rest

theorem ready_act {act : Act} (h : act ≠ .advance) (kind : Kind) (rest : List Item) :
    Ready kind (.act act :: rest) ↔ Ready kind rest := by
  cases act <;> first | rfl | exact absurd rfl h

theorem Arranged.ready {items : List Item} (h : Arranged items) (kind : Kind) :
    Ready kind items := by
  induction items with
  | nil => trivial
  | cons item items ih =>
    cases item with
    | look => exact h
    | act act => exact (ready_act h.1 kind items).2 (ih h.2)

/-- The spots at which only newlines are moved over. -/
def Spot.skips : Spot → Bool
  | leading | newlines => true
  | expect kind => kind = .newline
  | _ => false

section Plans

variable {rest : List Item}

@[simp] theorem arranged_unaryItems : Arranged (unaryItems ++ rest) ↔ Arranged rest := by
  simp [unaryItems]

@[simp] theorem arranged_termItems : Arranged (termItems ++ rest) ↔ Arranged rest := by
  simp [termItems]

@[simp] theorem arranged_expressionItems : Arranged (expressionItems ++ rest) ↔ Arranged rest := by
  simp [expressionItems]

@[simp] theorem arranged_newlineItems :
    Arranged (newlineItems ++ rest) ↔ EndsWell rest ∧ Arranged rest := by
  simp [newlineItems]

@[simp] theorem arranged_operandItems (level : Precedence) :
    Arranged (level.operandItems ++ rest) ↔ Arranged rest := by
  cases level <;> simp [Precedence.operandItems]

@[simp] theorem arranged_naming (naming : Naming) (token : Token) :
    Arranged (naming.items token ++ rest) ↔ Arranged rest := by
  cases naming <;> simp [Naming.items]

theorem passable_of_test {level : Precedence} {kind : Kind} (h : level.test kind = true) :
    Passable kind := by
  cases level with
  | products => exact passable_of_factor kind h
  | sums => exact passable_of_sign kind h
  | comparisons => exact passable_of_comparison kind h

theorem ready_opening (token : Token) (hends : EndsWell rest) (hrest : Arranged rest) :
    Ready token.kind (openingItems token ++ rest) := by
  unfold openingItems
  split
  case h_8 => exact hrest.ready _
  all_goals simp_all [namingItems, headItems, comparisonItems, Passable]

theorem passable_of_blockEnd {kind terminator : Kind} (h : blockEnd kind = some terminator) :
    Passable terminator := by
  unfold blockEnd at h
  split at h <;> cases h <;> decide

theorem ready_plan {σ : Type} {spot : Spot} (hskips : spot.skips = false)
    (h : Arranged (.look spot :: rest)) (p : Parser σ) :
    Ready p.current.kind (spot.plan p ++ rest) := by
  obtain ⟨hspot, hrest⟩ := h
  cases spot with
  | leading | newlines => cases hskips
  | block terminator =>
    rw [Spot.plan]
    split
    · exact hrest.ready _
    · split
      · exact hrest.ready _
      · exact ⟨hspot, hspot, hrest⟩
  | statement =>
    rw [Spot.plan, List.append_assoc]
    cases hblock : blockEnd p.current.kind with
    | none => exact ready_opening _ hspot hrest
    | some terminator =>
      have hterminator := passable_of_blockEnd hblock
      refine ready_opening _ (.inl hterminator.2) ⟨.inl hterminator.2, ?_⟩
      simp_all [closingItems, Passable]
  | expect kind =>
    rw [Spot.plan]
    split
    · next hkind =>
      rw [hkind]
      exact ⟨⟨of_decide_eq_false hskips, hspot.1⟩, hrest⟩
    · exact hrest.ready _
  | name naming =>
    rw [Spot.plan]
    split
    · next hkind =>
      rw [hkind]
      exact ⟨by decide, (arranged_naming naming _).2 hrest⟩
    · exact hrest.ready _
  | printed =>
    rw [Spot.plan]
    split
    · next hkind =>
      rw [hkind]
      exact ⟨by decide, by simp, hrest⟩
    · refine Arranged.ready ?_ _
      simpa using hrest
  | sign =>
    rw [Spot.plan]
    split
    · next hsign => exact ⟨passable_of_sign _ hsign, by simp, hrest⟩
    · exact hrest.ready _
  | operand =>
    rw [Spot.plan]
    cases hkind : p.current.kind
    case number => exact ⟨by decide, hrest⟩
    case identifier =>
      simp only
      split
      · exact ⟨by decide, hrest⟩
      · exact hrest.ready _
    all_goals exact hrest.ready _
  | operators level =>
    rw [Spot.plan]
    split
    · next htest =>
      refine ⟨passable_of_test htest, ?_⟩
      simpa using hrest
    · exact hrest.ready _
  | comparison =>
    rw [Spot.plan]
    split
    · exact ⟨trivial, hrest⟩
    · exact hrest.ready _

end Plans

/-! ## Pairings -/

/-- The act is about no single token. -/
def Act.isFree : Act → Bool
  | declareLabel _ | recordJump _ | failAt .. | throw _ => false
  | _ => true

def Item.isFree : Item → Bool
  | .act entry => entry.isFree
  | .look _ => true

/-- How two runs of the rules have to do with each other. -/
structure Pairing (σ τ : Type) where
  /-- The tokens ahead of the two parsers. -/
  tied : Lookahead σ → Lookahead τ → Prop
  /-- The places of two tokens that are alike. -/
  place : Location → Location → Prop
  /-- The lines that are shown for two such places. -/
  shown : Option String → Option String → Prop
  /-- The diagnostics of two pulls that fail. -/
  fault : Diagnostic → Diagnostic → Prop
  /-- Both have pulled the same number of tokens. -/
  counted : Prop
  /-- The first may come to the end of its tokens before the second. -/
  shorter : Prop

namespace Pairing

variable {σ τ : Type} (S : Pairing σ τ)

def Entry (x y : String × Location) : Prop :=
  x.1 = y.1 ∧ S.place x.2 y.2

structure Noted (p : Parser σ) (q : Parser τ) : Prop where
  precision : p.precision = q.precision
  variableNames : p.variableNames = q.variableNames
  labels : List.Forall₂ S.Entry p.labels q.labels
  jumps : List.Forall₂ S.Entry p.jumps q.jumps
  listing : p.listing = q.listing
  lines : ∀ a b, S.place a b → S.shown (p.sourceLine a.line) (q.sourceLine b.line)
  count : S.counted → p.count = q.count

structure Alike (p : Parser σ) (q : Parser τ) : Prop extends S.Noted p q where
  tied : S.tied p.lookahead q.lookahead

inductive Told : Diagnostic → Diagnostic → Prop
  | fault {d d' : Diagnostic} (h : S.fault d d') : Told d d'
  | refusal {cause cause' : Cause} {a b : Location} {line line' : Option String}
      (hcause : cause.Like S.place cause') (hplace : S.place a b) (hshown : S.shown line line') :
      Told ⟨cause, some a, line⟩ ⟨cause', some b, line'⟩

def Ended : EStateM.Result Diagnostic (Parser σ) Unit → Prop
  | .ok _ p => p.current.kind = .endOfInput
  | .error d _ => d.AtEnd

/-- Two runs of a rule have ended alike, or the first is at its end, if that may be. -/
inductive Outcome (ends : Prop) :
    EStateM.Result Diagnostic (Parser σ) Unit → EStateM.Result Diagnostic (Parser τ) Unit → Prop
  | ok {p : Parser σ} {q : Parser τ} (h : S.Alike p q) : Outcome ends (.ok () p) (.ok () q)
  | error {d d' : Diagnostic} {p : Parser σ} {q : Parser τ} (htold : S.Told d d')
      (h : S.Noted p q) : Outcome ends (.error d p) (.error d' q)
  | ended {result : EStateM.Result Diagnostic (Parser σ) Unit}
      {result' : EStateM.Result Diagnostic (Parser τ) Unit} (hends : ends) (h : Ended result) :
      Outcome ends result result'

inductive ActLike : Act → Act → Prop
  | same (act : Act) (h : act.isFree = true) : ActLike act act
  | declareLabel {t u : Token} (h : t.Like S.place u) : ActLike (.declareLabel t) (.declareLabel u)
  | recordJump {t u : Token} (h : t.Like S.place u) : ActLike (.recordJump t) (.recordJump u)
  | failAt {t u : Token} (cause : Cause) (h : t.Like S.place u) :
      ActLike (.failAt t cause) (.failAt u cause)
  | throw {d d' : Diagnostic} (h : S.Told d d') : ActLike (.throw d) (.throw d')

inductive ItemLike : Item → Item → Prop
  | act {a b : Act} (h : S.ActLike a b) : ItemLike (.act a) (.act b)
  | look (spot : Spot) : ItemLike (.look spot) (.look spot)

abbrev ItemsLike : List Item → List Item → Prop :=
  List.Forall₂ S.ItemLike

variable {S} {ends : Prop} {p : Parser σ} {q : Parser τ}

/-! ## Entries -/

theorem lookup_like {table table' : List (String × Location)}
    (h : List.Forall₂ S.Entry table table') (name : String) :
    table.lookup name = none ∧ table'.lookup name = none ∨
      ∃ a b, table.lookup name = some a ∧ table'.lookup name = some b ∧ S.place a b := by
  induction h with
  | nil => exact .inl ⟨rfl, rfl⟩
  | @cons x y table table' hxy _ ih =>
    obtain ⟨x, a⟩ := x
    obtain ⟨y, b⟩ := y
    obtain ⟨rfl, hplace⟩ : x = y ∧ S.place a b := hxy
    by_cases hname : name = x
    · exact .inr ⟨a, b, by simp [hname], by simp [hname], hplace⟩
    · have hother : (name == x) = false := by simpa using hname
      simpa only [List.lookup_cons, hother] using ih

theorem concat_like {table table' : List (String × Location)} {t u : Token}
    (h : List.Forall₂ S.Entry table table') (htoken : t.Like S.place u) :
    List.Forall₂ S.Entry (table ++ [(t.text, t.location)]) (table' ++ [(u.text, u.location)]) :=
  List.rel_append h (.cons ⟨htoken.text, htoken.place⟩ .nil)

theorem missing_like (h : S.Noted p q) : List.Forall₂ S.Entry p.missingJumps q.missingJumps := by
  refine List.rel_filter (fun x y hxy => ?_) h.jumps
  dsimp only
  rw [← hxy.1]
  rcases lookup_like h.labels x.1 with ⟨hp, hq⟩ | ⟨a, b, hp, hq, -⟩ <;> rw [hp, hq]
  rfl

theorem told_missing (hshown : S.shown none none) {missing missing' : List (String × Location)}
    (h : List.Forall₂ S.Entry missing missing') (hsome : missing ≠ []) :
    S.Told (.missingLabels (missing.map Prod.fst) (missing.map fun jump => some jump.2))
      (.missingLabels (missing'.map Prod.fst) (missing'.map fun jump => some jump.2)) := by
  have hlabels : missing.map Prod.fst = missing'.map Prod.fst :=
    List.forall₂_eq_eq_eq ▸ List.forall₂_map_left_iff.2
      (List.forall₂_map_right_iff.2 (h.imp fun _ _ h => h.1))
  have hplaces : List.Forall₂ S.place (missing.map Prod.snd) (missing'.map Prod.snd) :=
    List.forall₂_map_left_iff.2 (List.forall₂_map_right_iff.2 (h.imp fun _ _ h => h.2))
  have hcause := Cause.Like.undeclared (missing.map Prod.fst) hplaces
  rw [List.map_map, List.map_map] at hcause
  rw [← hlabels]
  cases h with
  | nil => exact absurd rfl hsome
  | cons hxy _ => exact .refusal hcause hxy.2 hshown

/-! ## Plans -/

theorem like_self {items : List Item} (h : items.all Item.isFree = true) :
    S.ItemsLike items items := by
  refine List.forall₂_same.2 fun item hitem => ?_
  have hfree := List.all_eq_true.1 h item hitem
  cases item with
  | act act => exact .act (.same act hfree)
  | look spot => exact .look spot

theorem naming_like {t u : Token} (h : t.Like S.place u) (naming : Naming) :
    S.ItemsLike (naming.items t) (naming.items u) := by
  cases naming with
  | label =>
    simp only [Naming.items, h.text]
    exact .cons (.act (.declareLabel h)) (like_self rfl)
  | goto =>
    simp only [Naming.items, h.text]
    exact .cons (.act (.recordJump h)) (like_self rfl)
  | assign | input =>
    simp only [Naming.items, h.text]
    exact like_self rfl

theorem opening_like {t u : Token} (h : t.Like S.place u) :
    S.ItemsLike (openingItems t) (openingItems u) := by
  unfold openingItems
  rw [← h.kind, ← h.description]
  split
  case h_8 => exact .cons (.act (.failAt _ h)) .nil
  all_goals exact like_self rfl

theorem plan_like (h : S.Alike p q) (hcurrent : p.current.Like S.place q.current)
    (hshown : S.shown none none) (spot : Spot) : S.ItemsLike (spot.plan p) (spot.plan q) := by
  have hfails (cause : Cause) :
      S.ItemsLike [.act (.failAt p.current cause)] [.act (.failAt q.current cause)] :=
    .cons (.act (.failAt cause hcurrent)) .nil
  cases spot with
  | leading | newlines =>
    simp only [Spot.plan, ← hcurrent.kind]
    split <;> exact like_self rfl
  | block terminator =>
    simp only [Spot.plan, ← hcurrent.kind, ← hcurrent.description]
    split
    · exact .nil
    · split
      · exact .cons (.act (.throw (.refusal (.same _) hcurrent.place hshown))) .nil
      · exact like_self rfl
  | statement =>
    simp only [Spot.plan, ← hcurrent.kind]
    refine List.rel_append (opening_like hcurrent) ?_
    split <;> exact like_self rfl
  | expect kind =>
    simp only [Spot.plan, ← hcurrent.kind, ← hcurrent.description]
    split
    · exact like_self rfl
    · exact hfails _
  | name naming =>
    simp only [Spot.plan, ← hcurrent.kind, ← hcurrent.description]
    split
    · exact .cons (.act (.same _ rfl)) (naming_like hcurrent naming)
    · exact hfails _
  | printed =>
    simp only [Spot.plan, ← hcurrent.kind, ← hcurrent.text, h.precision]
    split <;> exact like_self rfl
  | sign =>
    simp only [Spot.plan, ← hcurrent.kind, ← hcurrent.text]
    split <;> exact like_self rfl
  | operand =>
    simp only [Spot.plan, ← hcurrent.kind, ← hcurrent.text, ← hcurrent.description,
      sortedVariables, h.variableNames]
    refine .cons (.act (.same _ rfl)) ?_
    split
    · exact like_self rfl
    · split
      · exact like_self rfl
      · exact hfails _
    · exact hfails _
  | operators level =>
    simp only [Spot.plan, ← hcurrent.kind, ← hcurrent.text]
    split
    · cases level <;> exact like_self rfl
    · exact .nil
  | comparison =>
    simp only [Spot.plan, ← hcurrent.kind, ← hcurrent.description]
    split
    · exact like_self rfl
    · exact hfails _

/-! ## Acts -/

theorem Outcome.bind {rule : Rule σ Unit} {rule' : Rule τ Unit} {next : Unit → Rule σ Unit}
    {next' : Unit → Rule τ Unit} (first : S.Outcome False (rule p) (rule' q))
    (second : ∀ p' q', rule p = .ok () p' → S.Alike p' q' →
      S.Outcome ends (next () p') (next' () q')) :
    S.Outcome ends ((rule >>= next) p) ((rule' >>= next') q) := by
  generalize hp : rule p = result at first
  generalize hq : rule' q = result' at first
  cases first with
  | ok h =>
    rw [bind_of_ok hp, bind_of_ok hq]
    exact second _ _ hp h
  | error htold h =>
    rw [bind_of_error hp, bind_of_error hq]
    exact .error htold h
  | ended hends _ => exact hends.elim

variable [TokenSupply σ] [TokenSupply τ]

theorem outcome_act {a b : Act} (hab : S.ActLike a b) (hact : a ≠ .advance)
    (hshown : S.shown none none) (h : S.Alike p q) : S.Outcome ends (a.run p) (b.run q) := by
  have hfailAt {t u : Token} {cause cause' : Cause} (htoken : t.Like S.place u)
      (hcause : cause.Like S.place cause') :
      S.Outcome ends (failAt t cause p) (failAt u cause' q) :=
    .error (.refusal hcause htoken.place (h.lines _ _ htoken.place)) h.toNoted
  cases hab with
  | failAt cause htoken => exact hfailAt htoken (.same cause)
  | throw htold => exact .error htold h.toNoted
  | @recordJump t u htoken =>
    change S.Outcome ends (Parser.recordJump t p) (Parser.recordJump u q)
    rcases lookup_like h.jumps t.text with ⟨hp, hq⟩ | ⟨a, b, hp, hq, -⟩ <;> rw [htoken.text] at hq
    · rw [recordJump_of_none hp, recordJump_of_none hq]
      exact .ok { h with jumps := concat_like h.jumps htoken }
    · rw [recordJump_of_some hp, recordJump_of_some hq]
      exact .ok h
  | @declareLabel t u htoken =>
    change S.Outcome ends (Parser.declareLabel t p) (Parser.declareLabel u q)
    rcases lookup_like h.labels t.text with ⟨hp, hq⟩ | ⟨a, b, hp, hq, hplace⟩ <;>
      rw [htoken.text] at hq
    · rw [declareLabel_of_none hp, declareLabel_of_none hq]
      exact .ok { h with labels := concat_like h.labels htoken }
    · rw [declareLabel_of_some hp, declareLabel_of_some hq, htoken.text]
      exact hfailAt htoken (.duplicate _ hplace)
  | same _ hfree =>
    cases a with
    | advance => exact absurd rfl hact
    | note => exact .ok { h with }
    | emit text =>
      exact .ok { h with listing := congrArg (Target.Listing.code · text) h.listing }
    | emitLine text =>
      exact .ok { h with listing := congrArg (Target.Listing.codeLine · text) h.listing }
    | emitDeclaration text =>
      exact .ok { h with listing := congrArg (Target.Listing.declare · text) h.listing }
    | declare name =>
      change S.Outcome ends (Parser.declare name p) (Parser.declare name q)
      by_cases hknown : p.variableNames.contains name = true
      · rw [declare_of_known hknown, declare_of_known (h.variableNames ▸ hknown)]
        exact .ok h
      · rw [declare_of_new hknown, declare_of_new (h.variableNames ▸ hknown)]
        exact .ok { h with
          variableNames := congrArg (· ++ [name]) h.variableNames
          listing := congrArg (Target.Listing.declare · _) h.listing }
    | checkLabels =>
      have hmissing := missing_like h.toNoted
      change S.Outcome ends (Parser.checkLabels p) (Parser.checkLabels q)
      by_cases hnone : p.missingJumps = []
      · have hnone' : q.missingJumps = [] := List.forall₂_nil_left_iff.1 (hnone ▸ hmissing)
        rw [checkLabels_of_none hnone, checkLabels_of_none hnone']
        exact .ok h
      · have hnone' : q.missingJumps ≠ [] := fun hnil =>
          hnone (List.forall₂_nil_right_iff.1 (hnil ▸ hmissing))
        rw [checkLabels_of_some hnone, checkLabels_of_some hnone']
        exact .error (told_missing hshown hmissing hnone) h.toNoted
    | _ => cases hfree

/-! ## The laws -/

/-- Both supplies give a token and the runs stay tied, or both fail. -/
inductive Pulls (S : Pairing σ τ) (l : Lookahead σ) (m : Lookahead τ) : Prop
  | ok {t u : Token} {s : σ} {r : τ} (hpull : TokenSupply.pull l.supply = .ok t s)
      (hpull' : TokenSupply.pull m.supply = .ok u r)
      (hcount : S.counted → (t.kind = .endOfInput ↔ u.kind = .endOfInput))
      (htied : S.tied ⟨s, l.peek, t⟩ ⟨r, m.peek, u⟩)
  | error {d d' : Diagnostic} {s : σ} {r : τ} (hpull : TokenSupply.pull l.supply = .error d s)
      (hpull' : TokenSupply.pull m.supply = .error d' r) (hfault : S.fault d d')

structure Lawful (S : Pairing σ τ) : Prop where
  shown_none : S.shown none none
  current : ∀ {l m}, S.tied l m → l.current.Like S.place m.current
  pull : ∀ {l m}, S.tied l m → Passable l.current.kind → S.Pulls l m
  skip : ∀ p q, S.Alike p q → S.Outcome S.shorter (skipNewlines p) (skipNewlines q)

theorem Pulls.advance (h : S.Alike p q) (hpulls : S.Pulls p.lookahead q.lookahead) :
    S.Outcome ends (Act.advance.run p) (Act.advance.run q) := by
  cases hpulls with
  | ok hpull hpull' hcount htied =>
    rw [Act.advance_of_pull hpull, Act.advance_of_pull hpull']
    refine .ok { h with tied := htied, count := fun hcounted => ?_ }
    simp only [shifted, hcount hcounted, h.count hcounted]
  | error hpull hpull' hfault =>
    rw [Act.advance_of_fault hpull, Act.advance_of_fault hpull']
    exact .error (.fault hfault) { h.toNoted with }

/-- The runs may skip newlines one by one, up to where the first has none left and ends. -/
theorem pairs_skipNewlines
    (hcurrent : ∀ {l m}, S.tied l m → l.current.Like S.place m.current)
    (hnewline : ∀ {l m}, S.tied l m → l.current.kind = .newline → S.Pulls l m ∨
      S.shorter ∧ l.peek.kind = .endOfInput ∧ ∃ t s, TokenSupply.pull l.supply = .ok t s)
    (p : Parser σ) (q : Parser τ) (h : S.Alike p q) :
    S.Outcome S.shorter (skipNewlines p) (skipNewlines q) := by
  induction p using WellFounded.induction (measure fun q : Parser σ => q.size).wf
    generalizing q with
  | _ p ih =>
    have hkind : p.current.kind = q.current.kind := (hcurrent h.tied).kind
    unfold skipNewlines
    by_cases hfirst : p.current.kind = .newline
    · have hfirst' : q.current.kind = .newline := hkind ▸ hfirst
      rw [whileCurrent_of_true (decide_eq_true hfirst)]
      rcases hnewline h.tied hfirst with hpulls | ⟨hshorter, hend, t, s, hpull⟩
      · rw [whileCurrent_of_true (decide_eq_true hfirst')]
        refine (hpulls.advance h).bind fun p' q' hrun h => ih p' ?_ q' h
        obtain ⟨token, hadvance⟩ := discard_eq_ok hrun
        exact advance_size_lt hadvance (by rw [hfirst]; decide)
      · have hadvance : discard advance p = .ok () (p.shifted t s) := Act.advance_of_pull hpull
        have hlast : (p.shifted t s).current.kind = .endOfInput := hend
        refine .ended hshorter ?_
        rw [bind_of_ok hadvance, whileCurrent_of_false (by rw [hlast]; decide)]
        exact hlast
    · have hfirst' : q.current.kind ≠ .newline := hkind ▸ hfirst
      rw [whileCurrent_of_false (decide_eq_false hfirst),
        whileCurrent_of_false (decide_eq_false hfirst')]
      exact .ok h

/-! ## Runs -/

/-- At the end of the input nothing is left but to say so. -/
theorem ended_of_comes {rest : List Item} {result : EStateM.Result Diagnostic (Parser σ) Unit}
    (h : EndsWell rest) (hend : p.current.kind = .endOfInput)
    (hcomes : Config.Comes ⟨rest, p⟩ result) : Ended result := by
  fun_induction EndsWell rest generalizing p with
  | case1 =>
    rw [hcomes.eq_of_ends (.done () p)]
    exact hend
  | case2 text rest ih =>
    have hrun : (Act.emitLine text).run p = .ok () _ := rfl
    refine ih h ?_ (hcomes.of_leads (leads_act hrun rest))
    exact hend
  | case3 rest ih =>
    by_cases hnone : p.missingJumps = []
    · have hcheck : Act.checkLabels.run p = .ok () p := checkLabels_of_none hnone
      exact ih h hend (hcomes.of_leads (leads_act hcheck rest))
    · have hcheck : Act.checkLabels.run p = .error _ p := checkLabels_of_some hnone
      rw [hcomes.eq_of_ends (.failed hcheck)]
      exact .inr ⟨_, _, rfl⟩
  | case4 terminator rest ih =>
    have hplan := hcomes.of_leads (leads_look (.block terminator) p rest)
    rw [Spot.plan] at hplan
    by_cases hlast : p.current.kind = terminator
    · rw [if_pos hlast] at hplan
      exact ih (h.resolve_left (not_not_intro (hlast.symm.trans hend))) hend hplan
    · rw [if_neg hlast, if_pos hend] at hplan
      rw [hplan.eq_of_ends (.failed rfl)]
      refine .inl ⟨some terminator.description, ?_⟩
      rw [Token.description, hend]
      rfl
  | case5 => exact h.elim

/-- A rule that both runs go through, and what is left after it. -/
theorem Outcome.through {xs ys rest rest' : List Item}
    {x result : EStateM.Result Diagnostic (Parser σ) Unit}
    {y result' : EStateM.Result Diagnostic (Parser τ) Unit} (h : S.Outcome ends x y)
    (hx : Performs xs p x) (hy : Performs ys q y) (hc : Config.Comes ⟨xs ++ rest, p⟩ result)
    (hd : Config.Comes ⟨ys ++ rest', q⟩ result') (hends : ends → S.shorter ∧ EndsWell rest)
    (hnext : ∀ p' q', x = .ok () p' → S.Alike p' q' → Config.Comes ⟨rest, p'⟩ result →
      Config.Comes ⟨rest', q'⟩ result' → S.Outcome S.shorter result result') :
    S.Outcome S.shorter result result' := by
  cases h with
  | ok halike => exact hnext _ _ rfl halike (hc.of_leads (hx rest)) (hd.of_leads (hy rest'))
  | error htold hnoted =>
    rw [hc.of_error hx rfl, hd.of_error hy rfl]
    exact .error htold hnoted
  | ended hended h =>
    obtain ⟨hshorter, hwell⟩ := hends hended
    refine .ended hshorter ?_
    cases x with
    | ok _ p' => exact ended_of_comes hwell h (hc.of_leads (hx rest))
    | error d p' =>
      rw [hc.of_error hx rfl]
      exact h

structure Beside (S : Pairing σ τ) (c : Config σ) (d : Config τ) : Prop where
  alike : S.Alike c.parser d.parser
  items : S.ItemsLike c.agenda d.agenda
  ready : Ready c.parser.current.kind c.agenda

omit [TokenSupply τ] in
/-- One newline and all after it are the newlines that are skipped from the first one on. -/
theorem newlines_eq (p : Parser σ) :
    (do discard (expect .newline); skipNewlines : Rule σ Unit) p =
      if p.current.kind = .newline then skipNewlines p
      else failAt p.current
        (.unexpectedToken p.current.description (some Kind.newline.description)) p := by
  split
  · next hkind =>
    have hexpect : expect .newline p = advance p := congrFun (if_pos hkind) p
    rw [skipNewlines, whileCurrent_of_true (by simp [hkind])]
    exact bind_congr_rule (bind_congr_rule hexpect)
  · next hkind =>
    have hexpect : expect .newline p = failAt p.current _ p := congrFun (if_neg hkind) p
    exact bind_of_error (bind_of_error hexpect)

/-- After a row of newlines the runs go on with what is left. -/
theorem Outcome.skip {xs rest rest' : List Item}
    {x result : EStateM.Result Diagnostic (Parser σ) Unit}
    {y result' : EStateM.Result Diagnostic (Parser τ) Unit} (h : S.Outcome S.shorter x y)
    (hx : Performs xs p x) (hy : Performs xs q y) (hxs : xs ≠ [])
    (hc : Config.Comes ⟨xs ++ rest, p⟩ result) (hd : Config.Comes ⟨xs ++ rest', q⟩ result')
    (hrest : S.ItemsLike rest rest') (harranged : Arranged rest) (hends : EndsWell rest)
    (hnext : ∀ c, LeadsOn ⟨xs ++ rest, p⟩ c → ∀ {d}, c.Comes result → d.Comes result' →
      S.Beside c d → S.Outcome S.shorter result result') :
    S.Outcome S.shorter result result' := by
  refine h.through hx hy hc hd (fun hshorter => ⟨hshorter, hends⟩) fun p' q' hrun halike hc hd => ?_
  subst hrun
  exact hnext ⟨rest, p'⟩ (hx.leadsOn hxs rest) hc hd ⟨halike, hrest, harranged.ready _⟩

omit [TokenSupply τ] in
theorem performs_newline (p : Parser σ) :
    Performs [.look (.expect .newline), .look .newlines] p
      ((do discard (expect .newline); skipNewlines : Rule σ Unit) p) :=
  (performs_expect .newline p).bind fun _ q _ => performs_skipNewlines (fun _ => rfl) q

section Runs

variable (law : S.Lawful)

include law

theorem Lawful.outcome_act {a b : Act} {rest : List Item} (h : S.Alike p q)
    (hab : S.ActLike a b) (hready : Ready p.current.kind (.act a :: rest)) :
    S.Outcome False (a.run p) (b.run q) := by
  by_cases hact : a = .advance
  · subst hact
    cases hab
    exact (law.pull h.tied hready.1).advance h
  · exact Pairing.outcome_act hab hact law.shown_none h

theorem Lawful.outcome_newlines (h : S.Alike p q) :
    S.Outcome S.shorter ((do discard (expect .newline); skipNewlines : Rule σ Unit) p)
      ((do discard (expect .newline); skipNewlines : Rule τ Unit) q) := by
  have hcurrent : p.current.Like S.place q.current := law.current h.tied
  rw [newlines_eq, newlines_eq, ← hcurrent.kind, ← hcurrent.description]
  split
  · exact law.skip p q h
  · exact .error (.refusal (.same _) hcurrent.place (h.lines _ _ hcurrent.place)) h.toNoted

theorem Beside.outcome {c : Config σ} {d : Config τ}
    {result : EStateM.Result Diagnostic (Parser σ) Unit}
    {result' : EStateM.Result Diagnostic (Parser τ) Unit} (hc : c.Comes result)
    (hd : d.Comes result') (h : S.Beside c d) : S.Outcome S.shorter result result' := by
  induction hc.acc generalizing d with
  | intro c _ ih =>
    obtain ⟨agenda, p⟩ := c
    obtain ⟨agenda', q⟩ := d
    obtain ⟨halike, hitems, hready⟩ := h
    cases hitems with
    | nil =>
      rw [hc.eq_of_ends (.done () p), hd.eq_of_ends (.done () q)]
      exact .ok halike
    | @cons _ _ rest rest' hitem hrest =>
      cases hitem with
      | @act a b hab =>
        refine (law.outcome_act halike hab hready).through (performs_act a p) (performs_act b q)
          hc hd False.elim fun p' q' hrun halike hc hd => ?_
        refine ih ⟨rest, p'⟩ (.single (by simp only [Config.next, hrun])) hc hd
          ⟨halike, hrest, ?_⟩
        by_cases hact : a = .advance
        · subst hact
          exact hready.2.ready _
        · rw [← (Act.still hact).current_eq hrun]
          exact (ready_act hact _ rest).1 hready
      | look spot =>
        cases hskips : spot.skips with
        | false =>
          refine ih ⟨spot.plan p ++ rest, p⟩ (.single rfl) (hc.of_leads (leads_look spot p rest))
            (hd.of_leads (leads_look spot q rest')) ⟨halike, ?_, ready_plan hskips hready p⟩
          have hplan := plan_like halike (law.current halike.tied) law.shown_none spot
          exact List.rel_append hplan hrest
        | true =>
          obtain ⟨hspot, harranged⟩ := hready
          cases spot with
          | leading =>
            exact (law.skip p q halike).skip (performs_leading p) (performs_leading q) (by simp)
              hc hd hrest harranged hspot ih
          | newlines =>
            exact (law.skip p q halike).skip (performs_skipNewlines (fun _ => rfl) p)
              (performs_skipNewlines (fun _ => rfl) q) (by simp) hc hd hrest harranged hspot ih
          | expect kind =>
            obtain rfl := of_decide_eq_true hskips
            obtain ⟨after, rfl⟩ := hspot.2 rfl
            cases hrest with
            | cons hlook hafter =>
              cases hlook
              exact (law.outcome_newlines halike).skip (performs_newline p) (performs_newline q)
                (by simp) hc hd hafter harranged.2 harranged.1 ih
          | _ => cases hskips

theorem Lawful.pairs {items : List Item} {x : EStateM.Result Diagnostic (Parser σ) Unit}
    {y : EStateM.Result Diagnostic (Parser τ) Unit} (hx : Performs items p x)
    (hy : Performs items q y) (hfree : items.all Item.isFree = true) (harranged : Arranged items)
    (h : S.Alike p q) : S.Outcome S.shorter x y :=
  Beside.outcome law hx.ends hy.ends ⟨h, like_self hfree, harranged.ready _⟩

theorem pairs_program (h : S.Alike p q) : S.Outcome S.shorter (program p) (program q) :=
  law.pairs (performs_program p) (performs_program q) rfl (by simp [programItems]) h

/-- A program from its first statement on. -/
theorem pairs_statements (h : S.Alike p q) :
    S.Outcome S.shorter
      ((do block .endOfInput; checkLabels; emitLine "return 0;"; emitLine "\x7d" : Rule σ _) p)
      ((do block .endOfInput; checkLabels; emitLine "return 0;"; emitLine "\x7d" : Rule τ _) q) :=
  law.pairs (performs_statements p) (performs_statements q) rfl (by simp) h

end Runs

/-- Two parsers that have pulled no token become parsers that are alike, or fail alike. -/
theorem start_alike (law : S.Lawful) {precision : Int} {lines lines' : List String} {supply : σ}
    {supply' : τ} (h : S.Alike (fresh precision lines supply) (fresh precision lines' supply')) :
    (∃ p q, start precision lines supply = .ok p ∧ start precision lines' supply' = .ok q ∧
      S.Alike p q) ∨
    ∃ d d', start precision lines supply = .error d ∧ start precision lines' supply' = .error d' ∧
      S.Told d d' := by
  have hfill : S.Outcome False
      ((do discard advance; discard advance : Rule σ Unit) (fresh precision lines supply))
      ((do discard advance; discard advance : Rule τ Unit) (fresh precision lines' supply')) := by
    have hunread : Passable unread.kind := by decide
    refine ((law.pull h.tied hunread).advance h).bind fun p q hrun h => ?_
    obtain ⟨t, hadvance⟩ := discard_eq_ok hrun
    have hcurrent : p.lookahead.current = unread := current_of_advance hadvance
    exact (law.pull h.tied (hcurrent ▸ hunread)).advance h
  rw [start_eq, start_eq]
  generalize (do discard advance; discard advance : Rule σ Unit) _ = result at hfill ⊢
  generalize (do discard advance; discard advance : Rule τ Unit) _ = result' at hfill ⊢
  cases hfill with
  | ok h => exact .inl ⟨_, _, rfl, rfl, h⟩
  | error htold _ => exact .inr ⟨_, _, rfl, rfl, htold⟩
  | ended hends _ => exact hends.elim

end Pairing

end Parser

end TeenyLang
