import TeenyLang.Proofs.Meaning
import TeenyLang.Proofs.OutputLines

set_option autoImplicit false

/-!
# Faults of names

With which diagnostic a program is refused whose tokens have a derivation tree. What a name is there
for can be told from the token before it, so the uses of names are read off the tokens alone. The
first use that breaks a rule decides: a variable without a value or a label that is there already.
Without such a use the jumps to no label are reported, all of them at once.
-/
namespace TeenyLang

namespace Grammar

/-! ## Uses of names among the tokens -/

def roleAfter : Kind → Role
  | .keyword .LET | .keyword .INPUT => .target
  | .keyword .LABEL => .label
  | .keyword .GOTO => .jump
  | _ => .read

/-- The uses of names in a sequence of tokens that stands after a token of the kind `previous`. -/
def usesAfter (previous : Kind) : List Token → List Use
  | [] => []
  | t :: ts =>
    if t.kind = .identifier then ⟨roleAfter previous, t⟩ :: usesAfter t.kind ts
    else usesAfter t.kind ts

@[simp] theorem usesAfter_nil (previous : Kind) : usesAfter previous [] = [] :=
  rfl

@[simp] theorem usesAfter_cons (previous : Kind) (t : Token) (ts : List Token) :
    usesAfter previous (t :: ts) =
      if t.kind = .identifier then ⟨roleAfter previous, t⟩ :: usesAfter t.kind ts
      else usesAfter t.kind ts :=
  rfl

def nameUses (tokens : List Token) : List Use :=
  usesAfter .newline tokens

/-- The tokens stand for these uses, wherever they come, and a name after them is one to read. -/
def Tells (tokens : List Token) (uses : List Use) : Prop :=
  ∀ previous rest, roleAfter previous = .read → ∃ last, roleAfter last = .read ∧
    usesAfter previous (tokens ++ rest) = uses ++ usesAfter last rest

namespace Tells

theorem nil : Tells [] [] :=
  fun previous _ hprevious => ⟨previous, hprevious, rfl⟩

theorem append {xs ys : List Token} {us vs : List Use} (hx : Tells xs us) (hy : Tells ys vs) :
    Tells (xs ++ ys) (us ++ vs) := by
  intro previous rest hprevious
  obtain ⟨middle, hmiddle, hfirst⟩ := hx previous (ys ++ rest) hprevious
  obtain ⟨last, hlast, hsecond⟩ := hy middle rest hmiddle
  exact ⟨last, hlast, by rw [List.append_assoc, hfirst, hsecond, List.append_assoc]⟩

theorem flatMap {ι : Type} {tokens : ι → List Token} {uses : ι → List Use} {items : List ι}
    (h : ∀ i ∈ items, Tells (tokens i) (uses i)) :
    Tells (items.flatMap tokens) (items.flatMap uses) := by
  induction items with
  | nil => exact nil
  | cons i items ih =>
    obtain ⟨hi, hitems⟩ := List.forall_mem_cons.1 h
    exact hi.append (ih hitems)

/-- A token that is neither a name nor a word that a name follows. -/
theorem plain {t : Token} (hname : t.kind ≠ .identifier) (hrole : roleAfter t.kind = .read) :
    Tells [t] [] := by
  intro previous rest _
  exact ⟨t.kind, hrole, by simp [hname]⟩

theorem name (t : Leaf [.identifier]) : Tells [t.1] [⟨.read, t.1⟩] := by
  have hkind : t.1.kind = .identifier := List.mem_singleton.1 t.2
  intro previous rest hprevious
  exact ⟨.identifier, rfl, by simp [hkind, hprevious]⟩

/-- A word and the name that it is about. -/
theorem naming {word : Keyword} {role : Role} (w : Leaf [.keyword word]) (t : Leaf [.identifier])
    (hrole : roleAfter (.keyword word) = role) : Tells [w.1, t.1] [⟨role, t.1⟩] := by
  have hword : w.1.kind = .keyword word := List.mem_singleton.1 w.2
  have hkind : t.1.kind = .identifier := List.mem_singleton.1 t.2
  intro previous rest _
  exact ⟨.identifier, rfl, by simp [hword, hkind, hrole]⟩

theorem leaf {kinds : List Kind} (t : Leaf kinds)
    (h : ∀ kind ∈ kinds, kind ≠ .identifier ∧ roleAfter kind = .read) : Tells [t.1] [] :=
  plain (h _ t.2).1 (h _ t.2).2

theorem leaves {kinds : List Kind} (ts : List (Leaf kinds))
    (h : ∀ kind ∈ kinds, kind ≠ .identifier ∧ roleAfter kind = .read) :
    Tells (ts.map Subtype.val) [] := by
  induction ts with
  | nil => exact nil
  | cons t ts ih => exact (leaf t h).append ih

theorem newlines (n : Newlines) : Tells n.tokens [] :=
  (leaf n.first (by decide)).append (leaves n.more (by decide))

theorem unary (u : Unary) : Tells u.tokens u.uses := by
  obtain ⟨sign, operand⟩ := u
  have hsign : Tells (sign.map Subtype.val).toList [] := by
    cases sign with
    | none => exact nil
    | some sign => exact leaf sign (by decide)
  have hoperand : Tells [operand.token] operand.uses := by
    cases operand with
    | number t => exact leaf t (by decide)
    | ident t => exact name t
  exact hsign.append hoperand

theorem chain {operators : List Kind} {α : Type} {tokens : α → List Token} {uses : α → List Use}
    (hoperators : ∀ kind ∈ operators, kind ≠ .identifier ∧ roleAfter kind = .read)
    (h : ∀ a, Tells (tokens a) (uses a)) (c : Chain operators α) :
    Tells (c.tokens tokens) (c.uses uses) :=
  (h c.head).append (flatMap fun link _ => (leaf link.1 hoperators).append (h link.2))

theorem expression (e : Expression) : Tells (Expression.tokens e) (Expression.uses e) :=
  chain (by decide) (chain (by decide) unary) e

theorem comparison (c : Comparison) : Tells (Comparison.tokens c) (Comparison.uses c) :=
  chain (by decide) expression c.1

theorem printed (x : Printed) : Tells x.tokens x.uses := by
  cases x with
  | text t => exact leaf t (by decide)
  | value e => exact expression e

theorem body {statements : List Statement} (h : ∀ s ∈ statements, Tells s.tokens s.uses) :
    Tells (bodyTokens statements) (bodyUses statements) := by
  rw [bodyTokens_eq_flatMap, bodyUses_eq_flatMap]
  exact flatMap h

theorem statement (s : Statement) : Tells s.tokens s.uses := by
  induction s using Statement.induction with
  | print word x ending =>
    simpa [Statement.tokens, Statement.uses] using
      (leaf word (by decide)).append ((printed x).append (newlines ending))
  | label word name ending => exact (naming word name rfl).append (newlines ending)
  | goto word name ending => exact (naming word name rfl).append (newlines ending)
  | assign word name equals value ending =>
    have hname : Tells [word.1, name.1] [⟨.target, name.1⟩] := naming word name rfl
    simpa [Statement.tokens, Statement.uses] using hname.append
      ((leaf equals (by decide)).append ((expression value).append (newlines ending)))
  | input word name ending => exact (naming word name rfl).append (newlines ending)
  | block form word condition follower gap statements closer ending ih =>
    have hword := leaf word (by cases form <;> decide)
    have hfollower := leaf follower (by cases form <;> decide)
    have hcloser := leaf closer (by cases form <;> decide)
    simpa [Statement.tokens, Statement.uses] using
      hword.append ((comparison condition).append (hfollower.append
        ((newlines gap).append ((body ih).append (hcloser.append (newlines ending))))))

theorem program (P : Program) : Tells P.tokens P.uses :=
  (leaves P.leading (by decide)).append (body fun s _ => statement s)

end Tells

/-! ## Rules on names -/

/-- After the uses `before` the use `u` breaks a rule: it reads a variable that has got no value, or
it declares a label that is declared. -/
def Offends (before : List Use) (u : Use) : Prop :=
  u.role = .read ∧ u.name ∉ named .target before ∨ u.role = .label ∧ u.name ∈ named .label before

def InOrder (uses : List Use) : Prop :=
  ∀ before u after, uses = before ++ u :: after → ¬ Offends before u

/-- The uses of names in a role, only the first one of each name. -/
def firstUses (role : Role) : List Use → List Use
  | [] => []
  | u :: rest =>
    if u.role = role then u :: (firstUses role rest).filter (fun v => v.name ≠ u.name)
    else firstUses role rest

@[simp] theorem firstUses_nil (role : Role) : firstUses role [] = [] :=
  rfl

theorem firstUses_cons (role : Role) (u : Use) (rest : List Use) :
    firstUses role (u :: rest) =
      if u.role = role then u :: (firstUses role rest).filter (fun v => v.name ≠ u.name)
      else firstUses role rest :=
  rfl

/-- The first jump to each label that is nowhere declared. -/
def strayJumps (uses : List Use) : List Use :=
  (firstUses .jump uses).filter fun u => u.name ∉ named .label uses

theorem inOrder_iff (uses : List Use) :
    InOrder uses ↔ ReadsDeclared uses ∧ (named .label uses).Nodup := by
  have hlabels : (named .label uses).Nodup ↔ ∀ before u after, uses = before ++ u :: after →
      u.role = .label → u.name ∉ named .label before := by
    constructor
    · rintro hnodup before u after rfl hrole hmem
      rw [named_append, List.nodup_append] at hnodup
      have hu : u.name ∈ named .label (u :: after) := by simp [named, hrole]
      exact hnodup.2.2 _ hmem _ hu rfl
    · intro h
      induction uses using List.reverseRecOn with
      | nil => exact .nil
      | append_singleton us u ih =>
        have hus := ih fun before v after hsplit => h before v (after ++ [u]) (by simp [hsplit])
        rw [named_append, named_singleton]
        split
        · next hrole =>
          rw [List.nodup_append_comm]
          exact List.nodup_cons.2 ⟨h us u [] rfl hrole, hus⟩
        · rwa [List.append_nil]
  rw [hlabels]
  constructor
  · intro h
    refine ⟨fun before u after hsplit hrole => ?_, fun before u after hsplit hrole hmem => ?_⟩
    · by_contra hnew
      exact h before u after hsplit (.inl ⟨hrole, hnew⟩)
    · exact h before u after hsplit (.inr ⟨hrole, hmem⟩)
  · rintro ⟨hreads, hlabels⟩ before u after hsplit (⟨hrole, hnew⟩ | ⟨hrole, hmem⟩)
    · exact hnew (hreads before u after hsplit hrole)
    · exact hlabels before u after hsplit hrole hmem

instance (uses : List Use) : Decidable (InOrder uses) :=
  decidable_of_iff' _ (inOrder_iff uses)

theorem mem_map_firstUses {role : Role} {uses : List Use} {name : String} :
    name ∈ (firstUses role uses).map Use.name ↔ name ∈ named role uses := by
  induction uses with
  | nil => exact Iff.rfl
  | cons u uses ih =>
    have hcons : named role (u :: uses) = named role [u] ++ named role uses :=
      named_append role [u] uses
    rw [hcons, named_singleton, List.mem_append, ← ih, firstUses_cons]
    by_cases hrole : u.role = role
    · simp only [hrole, ↓reduceIte, List.map_cons, List.mem_cons, List.mem_map, List.mem_filter,
        List.not_mem_nil, or_false, decide_eq_true_eq]
      constructor
      · rintro (rfl | ⟨v, ⟨hv, _⟩, rfl⟩)
        · exact .inl rfl
        · exact .inr ⟨v, hv, rfl⟩
      · rintro (rfl | ⟨v, hv, rfl⟩)
        · exact .inl rfl
        · by_cases hsame : v.name = u.name
          · exact .inl hsame
          · exact .inr ⟨v, ⟨hv, hsame⟩, rfl⟩
    · simp [hrole]

theorem firstUses_concat (role : Role) (us : List Use) (u : Use) :
    firstUses role (us ++ [u]) =
      if u.role = role ∧ u.name ∉ named role us then firstUses role us ++ [u]
      else firstUses role us := by
  induction us with
  | nil =>
    rw [List.nil_append, firstUses_cons]
    by_cases hrole : u.role = role <;> simp [hrole, named]
  | cons v us ih =>
    have hcons : named role (v :: us) = named role [v] ++ named role us :=
      named_append role [v] us
    rw [List.cons_append, firstUses_cons, ih, firstUses_cons, hcons, named_singleton]
    by_cases hv : v.role = role
    · by_cases hsame : v.name = u.name
      · by_cases hnew : u.role = role ∧ u.name ∉ named role us <;> simp [hv, hsame, hnew]
      · have hother : ¬ u.name = v.name := fun h => hsame h.symm
        by_cases hnew : u.role = role ∧ u.name ∉ named role us
        · simp [hv, hother, hnew]
        · simp [hv, hother, if_neg hnew]
    · simp [hv]

theorem firstUses_prefix_append (role : Role) (us vs : List Use) :
    firstUses role us <+: firstUses role (us ++ vs) := by
  induction vs using List.reverseRecOn with
  | nil => simp
  | append_singleton vs u ih =>
    rw [← List.append_assoc, firstUses_concat]
    split
    · exact ih.trans (List.prefix_append _ _)
    · exact ih

theorem firstUses_sublist (role : Role) (uses : List Use) : (firstUses role uses).Sublist uses := by
  induction uses with
  | nil => exact List.Sublist.refl _
  | cons u uses ih =>
    rw [firstUses_cons]
    split
    · exact (List.filter_sublist.trans ih).cons_cons u
    · exact ih.cons u

def Use.entry (u : Use) : String × Location :=
  (u.name, u.token.location)

end Grammar

open Grammar

/-! ## The tables -/

namespace Record

/-- The tables of labels and of jumps hold the places of the first uses. -/
structure Located (uses : List Use) (r : Record) : Prop where
  labels : r.labels = (firstUses .label uses).map Use.entry
  jumps : r.jumps = (firstUses .jump uses).map Use.entry

theorem lookup_firstUses {role : Role} {uses : List Use} {table : List (String × Location)}
    (htable : table = (firstUses role uses).map Use.entry) (name : String) :
    table.lookup name = none ↔ name ∉ named role uses := by
  rw [lookup_eq_none_iff_notMem, htable, List.map_map, ← mem_map_firstUses]
  rfl

theorem Located.use {r r' : Record} {us : List Use} {u : Use} (h : Located us r)
    (hu : r.use u = .ok r') : Located (us ++ [u]) r' := by
  have hlabel := lookup_firstUses h.labels u.name
  have hjump := lookup_firstUses h.jumps u.name
  cases hrole : u.role with
  | target =>
    simp only [Record.use, hrole, declare] at hu
    split at hu <;> cases hu <;>
      exact ⟨by simp [firstUses_concat, hrole, h.labels],
        by simp [firstUses_concat, hrole, h.jumps]⟩
  | read =>
    simp only [Record.use, hrole] at hu
    split at hu <;> cases hu
    exact ⟨by simp [firstUses_concat, hrole, h.labels], by simp [firstUses_concat, hrole, h.jumps]⟩
  | label =>
    simp only [Record.use, hrole] at hu
    split at hu <;> cases hu
    next hnone =>
    have hnew := hlabel.1 hnone
    exact ⟨by simp [firstUses_concat, hrole, hnew, h.labels, Use.entry],
      by simp [firstUses_concat, hrole, h.jumps]⟩
  | jump =>
    simp only [Record.use, hrole] at hu
    split at hu
    · next place hsome =>
      cases hu
      have hold : u.name ∈ named .jump us := by
        by_contra hnew
        rw [hjump.2 hnew] at hsome
        cases hsome
      exact ⟨by simp [firstUses_concat, hrole, h.labels],
        by simp [firstUses_concat, hold, h.jumps]⟩
    · next hnone =>
      cases hu
      have hnew := hjump.1 hnone
      exact ⟨by simp [firstUses_concat, hrole, h.labels],
        by simp [firstUses_concat, hrole, hnew, h.jumps, Use.entry]⟩

theorem located_useAll {start r : Record} (hstart : Located [] start) {uses : List Use}
    (h : start.useAll uses = .ok r) : Located uses r := by
  induction uses using List.reverseRecOn generalizing r with
  | nil =>
    cases h
    exact hstart
  | append_singleton us u ih =>
    rw [useAll_concat] at h
    cases hus : start.useAll us with
    | error d =>
      rw [hus] at h
      cases h
    | ok r' =>
      rw [hus] at h
      exact (ih hus).use h

theorem Located.missing_eq {uses : List Use} {r : Record} (h : Located uses r) :
    r.missing = (strayJumps uses).map Use.entry := by
  have hlabel (u : Use) :
      (r.labels.lookup u.entry.1).isNone = true ↔ u.name ∉ named .label uses := by
    rw [Option.isNone_iff_eq_none]
    exact lookup_firstUses h.labels u.name
  rw [missing, h.jumps, List.filter_map, strayJumps]
  refine congrArg _ (List.filter_congr fun u _ => ?_)
  rw [Function.comp_apply, Bool.eq_iff_iff, hlabel u, decide_eq_true_eq]

theorem Located.lookup_label {uses : List Use} {r : Record} (h : Located uses r) {name : String}
    (hname : name ∈ named .label uses) :
    ∃ first ∈ firstUses .label uses, first.name = name ∧
      r.labels.lookup name = some first.token.location := by
  cases hlookup : r.labels.lookup name with
  | none => exact absurd hname ((lookup_firstUses h.labels name).1 hlookup)
  | some place =>
    obtain ⟨_, _, htable, _⟩ := List.lookup_eq_some_iff.1 hlookup
    have hmem : (name, place) ∈ (firstUses .label uses).map Use.entry := by
      rw [← h.labels, htable]
      simp
    obtain ⟨first, hfirst, hentry⟩ := List.mem_map.1 hmem
    cases hentry
    exact ⟨first, hfirst, rfl, rfl⟩

/-! ## The diagnostic -/

variable {precision : Int} {lines : List String}

theorem located_initial : Located [] (initial precision lines) :=
  ⟨rfl, rfl⟩

theorem useAll_of_inOrder (precision : Int) (lines : List String) {uses : List Use}
    (h : InOrder uses) : ∃ r, (initial precision lines).useAll uses = .ok r :=
  (useAll_isOk_iff (holds_initial precision lines) uses).2 ((inOrder_iff uses).1 h)

/-- The first use that fails ends everything. -/
theorem textOf_of_use_error {start r : Record} {before after : List Use} {u : Use} {d : Diagnostic}
    (hbefore : start.useAll before = .ok r) (hu : r.use u = .error d) (code : String) :
    start.textOf (before ++ u :: after) code = .error d := by
  have hall : start.useAll (before ++ u :: after) = .error d := by
    rw [useAll_append, hbefore]
    change (r.use u).bind _ = _
    rw [hu]
    rfl
  rw [textOf, run, hall]
  rfl

theorem textOf_of_read {before after : List Use} {u : Use} (hbefore : InOrder before)
    (hrole : u.role = .read) (hnew : u.name ∉ named .target before) (code : String) :
    ∃ shown, (initial precision lines).textOf (before ++ u :: after) code =
      .error ⟨.undeclaredVariable u.name (Text.closeMatches u.name
        ((named .target before).eraseDups.mergeSort fun x y => decide (x ≤ y))),
        some u.token.location, shown⟩ := by
  obtain ⟨r, hr⟩ := useAll_of_inOrder precision lines hbefore
  have hnames := (holds_useAll (holds_initial precision lines) hr).variableNames
  have hnone : ¬ r.variableNames.contains u.name = true := by
    simpa [hnames, List.mem_eraseDups] using hnew
  have huse : r.use u =
      .error (r.fault u.token (.undeclaredVariable u.name (r.similar u.name))) := by
    simp only [Record.use, hrole, hnone, Bool.false_eq_true, ↓reduceIte]
  rw [← hnames]
  exact ⟨_, textOf_of_use_error hr huse code⟩

theorem textOf_of_label {before after : List Use} {u : Use} (hbefore : InOrder before)
    (hrole : u.role = .label) (hold : u.name ∈ named .label before) (code : String) :
    ∃ shown, ∃ first ∈ firstUses .label (before ++ u :: after), first.name = u.name ∧
      (initial precision lines).textOf (before ++ u :: after) code =
        .error ⟨.duplicateLabel u.name (some first.token.location), some u.token.location,
          shown⟩ := by
  obtain ⟨r, hr⟩ := useAll_of_inOrder precision lines hbefore
  obtain ⟨first, hfirst, hname, hlookup⟩ := (located_useAll located_initial hr).lookup_label hold
  have hmem := (firstUses_prefix_append .label before (u :: after)).subset hfirst
  have huse : r.use u =
      .error (r.fault u.token (.duplicateLabel u.name (some first.token.location))) := by
    simp only [Record.use, hrole, hlookup]
  exact ⟨_, first, hmem, hname, textOf_of_use_error hr huse code⟩

theorem textOf_of_stray {uses : List Use} (horder : InOrder uses) (hstray : strayJumps uses ≠ [])
    (code : String) :
    (initial precision lines).textOf uses code =
      .error (.missingLabels ((strayJumps uses).map Use.name)
        ((strayJumps uses).map fun u => some u.token.location)) := by
  obtain ⟨r, hr⟩ := useAll_of_inOrder precision lines horder
  have hmissing : (r.write code).missing = (strayJumps uses).map Use.entry :=
    (located_useAll located_initial hr).missing_eq
  have hsome : (r.write code).missing ≠ [] := by simpa [hmissing] using hstray
  simp only [textOf, run, hr, Except.map, Except.bind, finish, hsome, ↓reduceIte]
  rw [hmissing, List.map_map, List.map_map]
  rfl

end Record

theorem Scanner.readAll_file (s : Scanner) : ∀ t ∈ s.readAll.tokens, t.location.file = s.file := by
  induction s using WellFounded.induction (measure fun s : Scanner => s.cursor.rest.length).wf with
  | _ s ih =>
    cases hnext : next s with
    | error d s' =>
      rw [readAll_of_error hnext]
      simp
    | ok t s' =>
      have hplace : t.location.file = s.file ∧ s'.file = s.file := by
        unfold next at hnext
        simp only at hnext
        split at hnext <;> cases hnext
        exact ⟨rfl, rfl⟩
      rw [readAll_of_ok hnext]
      split
      · simp [hplace.1]
      · next hend =>
        rw [List.forall_mem_cons, ← hplace.2]
        exact ⟨hplace.1.trans hplace.2.symm, ih s' (next_lt hnext hend)⟩

def sourceUses (source file : String) : List Use :=
  nameUses (Scanner.start source file).readAll.tokens

theorem sourceUses_of_derives {source file : String} {P : Program} (h : Derives source file P) :
    sourceUses source file = P.uses := by
  obtain ⟨_, last, hlast, htokens⟩ := h
  obtain ⟨kind, _, huses⟩ := Tells.program P .newline [last] rfl
  rw [sourceUses, nameUses, htokens, huses]
  simp [hlast]

def strayLine (u : Use) : String :=
  u.token.location.text ++ ": error: " ++ ("GOTO to undeclared label '" ++ u.name ++ "'")

theorem strayLine_newline {u : Use} (hfile : '\n' ∉ u.token.location.file.toList)
    (hname : ∀ c ∈ u.name.toList, C.isNameChar c) : '\n' ∉ (strayLine u).toList := by
  have hcode {text : String} (h : ∀ c ∈ text.toList, isCodeChar c) : '\n' ∉ text.toList :=
    fun hmem => ne_of_codeChar (h _ hmem) (by decide) rfl
  have hplace : '\n' ∉ u.token.location.text.toList := by
    simp only [Location.text, String.toList_append, List.mem_append, not_or]
    exact ⟨⟨⟨⟨hfile, by decide⟩, hcode (toString_chars _)⟩, by decide⟩, hcode (toString_chars _)⟩
  simp only [strayLine, String.toList_append, List.mem_append, not_or]
  exact ⟨⟨hplace, by decide⟩,
    ⟨by decide, hcode fun c hc => codeChar_of_nameChar (hname c hc)⟩, by decide⟩

/-- The message for jumps to no label has one line for each label. -/
theorem missingLabels_message {stray : List Use} (hstray : stray ≠ []) :
    (Diagnostic.missingLabels (stray.map Use.name)
      (stray.map fun u => some u.token.location)).messageLines = stray.map strayLine := by
  have hplaces : (stray.map fun u => some u.token.location).isEmpty = false := by simp [hstray]
  simp only [Diagnostic.missingLabels, Diagnostic.messageLines, hplaces, Bool.false_eq_true,
    ↓reduceIte, List.zipWith_map, List.zipWith_self]
  rfl

/-- What becomes of a source whose tokens have a derivation tree. The first use of a name that
breaks a rule decides: the reading of a variable without a value, or a label that is declared
already, where the place of the first label is told. If there is none, the labels that are jumped to
and declared nowhere are reported, each once and with a line of its own, in the order of the first
jumps and at these. Otherwise the source is translated. -/
theorem targetText_nameFault {source file : String} {P : Program} (h : Derives source file P)
    (precision : Int) :
    (∀ before u after, sourceUses source file = before ++ u :: after → InOrder before →
      (u.role = .read → u.name ∉ named .target before →
        ∃ shown, targetText source file precision =
          .error ⟨.undeclaredVariable u.name (Text.closeMatches u.name
            ((named .target before).eraseDups.mergeSort fun x y => decide (x ≤ y))),
            some u.token.location, shown⟩) ∧
      (u.role = .label → u.name ∈ named .label before →
        ∃ shown, ∃ first ∈ firstUses .label (sourceUses source file), first.name = u.name ∧
          targetText source file precision =
            .error ⟨.duplicateLabel u.name (some first.token.location), some u.token.location,
              shown⟩)) ∧
    (InOrder (sourceUses source file) → ∀ stray, strayJumps (sourceUses source file) = stray →
      (stray ≠ [] → ∃ d, targetText source file precision = .error d ∧
        d.cause = .undeclaredLabels (stray.map Use.name)
          (stray.map fun u => some u.token.location) ∧
        d.location = stray.head?.map (fun u => u.token.location) ∧
        d.messageLines = stray.map strayLine ∧
        ('\n' ∉ file.toList →
          d.message.toList.splitOn '\n' = stray.map fun u => (strayLine u).toList)) ∧
      (stray = [] → ∃ text, targetText source file precision = .ok text)) := by
  obtain ⟨lines, htext⟩ := targetText_of_derives h precision
  have huses := sourceUses_of_derives h
  rw [← huses] at htext
  refine ⟨fun before u after hsplit hbefore => ⟨fun hrole hnew => ?_, fun hrole hold => ?_⟩, ?_⟩
  · rw [htext, hsplit]
    exact Record.textOf_of_read hbefore hrole hnew _
  · rw [htext, hsplit]
    exact Record.textOf_of_label hbefore hrole hold _
  rintro horder stray rfl
  constructor
  · intro hstray
    have hlines := missingLabels_message hstray
    refine ⟨_, htext.trans (Record.textOf_of_stray horder hstray _), ?_, ?_, hlines, ?_⟩
    · simp [Diagnostic.missingLabels, hstray]
    · cases hcases : strayJumps (sourceUses source file) with
      | nil => exact absurd hcases hstray
      | cons u rest => rfl
    · intro hfile
      rw [Diagnostic.message, hlines, String.toList_intercalate, List.map_map]
      refine List.splitOn_intercalate _ ?_ (by simpa using hstray)
      rw [List.forall_mem_map]
      intro u hu
      have hmem : u ∈ P.uses :=
        huses ▸ (firstUses_sublist .jump _).subset (List.mem_of_mem_filter hu)
      obtain ⟨hkind, htoken⟩ := P.usesIn u hmem
      refine strayLine_newline ?_ ((written_of_derives h u.token htoken).name hkind)
      obtain ⟨_, last, _, htokens⟩ := h
      have hread : u.token ∈ (Scanner.start source file).readAll.tokens := by
        rw [htokens]
        exact List.mem_append_left _ htoken
      rwa [Scanner.readAll_file _ _ hread]
  · intro hnone
    obtain ⟨hreads, hlabels⟩ := (inOrder_iff _).1 horder
    have hjumps : ∀ name ∈ named .jump (sourceUses source file),
        name ∈ named .label (sourceUses source file) := by
      intro name hname
      obtain ⟨u, hu, rfl⟩ := List.mem_map.1 (mem_map_firstUses.2 hname)
      simpa using List.filter_eq_nil_iff.1 hnone u hu
    exact ⟨_, targetText_of_wellNamed h (huses ▸ ⟨hreads, hlabels, hjumps⟩) precision⟩

section Twice

/-- A jump to no label, a label that is declared again in a block, and then a variable without a
value. -/
def twiceSource : String :=
  "GOTO out\nLABEL a\nIF 1 == 2 THEN\nLABEL a\nENDIF\nPRINT x"

def twiceTree : Program where
  leading := []
  statements :=
    let name (text : String) (line column : Int) : Leaf [.identifier] :=
      .only (tokenIn "twice" .identifier text line column)
    let number (text : String) (line column : Int) : Expression :=
      ⟨⟨⟨none, .number (.only (tokenIn "twice" .number text line column))⟩, []⟩, []⟩
    let label (line : Int) : Statement :=
      .label (wordIn "twice" .LABEL line 1) (name "a" line 7)
        (newlineIn "twice" line 8)
    [.goto (wordIn "twice" .GOTO 1 1) (name "out" 1 6) (newlineIn "twice" 1 9),
      label 2,
      .block .ifThen (wordIn "twice" .IF 3 1)
        ⟨⟨number "1" 3 4,
          [(⟨tokenIn "twice" (.operator .equal) "==" 3 6, by decide⟩, number "2" 3 9)]⟩,
          List.cons_ne_nil _ _⟩
        (wordIn "twice" .THEN 3 11) (newlineIn "twice" 3 15) [label 4]
        (wordIn "twice" .ENDIF 5 1) (newlineIn "twice" 5 6),
      .print (wordIn "twice" .PRINT 6 1)
        (.value ⟨⟨⟨none, .ident (name "x" 6 7)⟩, []⟩, []⟩) (newlineIn "twice" 6 8)]

theorem derives_twiceTree : Derives twiceSource "twice" twiceTree := by
  have hread : (Scanner.start twiceSource "twice").readAll.failure = none ∧
      (Scanner.start twiceSource "twice").readAll.tokens =
        twiceTree.tokens ++ [tokenIn "twice" .endOfInput "" 7 1] := by decide +kernel
  exact ⟨hread.1, _, rfl, hread.2⟩

theorem targetText_nameFault_twice :
    ∃ shown, targetText twiceSource "twice" 2 =
      .error ⟨.duplicateLabel "a" (some ⟨"twice", 2, 7⟩), some ⟨"twice", 4, 7⟩, shown⟩ := by
  obtain ⟨hfault, -⟩ := targetText_nameFault derives_twiceTree 2
  let label (line : Int) : Use := ⟨.label, tokenIn "twice" .identifier "a" line 7⟩
  let jump : Use := ⟨.jump, tokenIn "twice" .identifier "out" 1 6⟩
  have huses : sourceUses twiceSource "twice" =
      [jump, label 2] ++ label 4 :: [⟨.read, tokenIn "twice" .identifier "x" 6 7⟩] :=
    sourceUses_of_derives derives_twiceTree
  obtain ⟨shown, first, hfirst, -, htext⟩ :=
    (hfault _ _ _ huses (by decide +kernel)).2 rfl (by decide +kernel)
  have hlabel : firstUses .label (sourceUses twiceSource "twice") = [label 2] := by
    rw [huses]
    rfl
  rw [hlabel, List.mem_singleton] at hfirst
  rw [hfirst] at htext
  exact ⟨shown, htext⟩

end Twice

end TeenyLang
