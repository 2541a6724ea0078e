import TeenyLang.Proofs.EmittedExpression
import TeenyLang.Proofs.LineTokens

set_option autoImplicit false

/-!
# Names and braces in the lines of a translation

A line of a translation jumps, is a label, or has no names but those of C and the variables that
the statement uses. The labels of the lines are those of the statements, and the braces of the lines
of a statement are nested.
-/
namespace TeenyLang

open Grammar

namespace C

def jump (v : List Char) : List Char :=
  "goto".toList ++ ' ' :: (v ++ [';'])

def label (v : List Char) : List Char :=
  v ++ [':', ';']

def reserved : List String :=
  ["include", "stdio", "h", "int", "main", "void", "float", "printf", "scanf", "if", "while",
    "goto", "return"]

/-- Lines whose braces are nested: one that starts a function, a condition or a loop opens a
block, and a line of its own closes it. -/
inductive Nested : List (List CToken) → Prop
  | nil : Nested []
  | plain {ts : List CToken} {rest : List (List CToken)} (hopen : mark "\x7b" ∉ ts)
      (hclose : mark "\x7d" ∉ ts) (h : Nested rest) : Nested (ts :: rest)
  | block {ts : List CToken} {inner rest : List (List CToken)}
      (hstart : ts.head? ∈ [some (word "int"), some (word "if"), some (word "while")])
      (hopen : mark "\x7b" ∉ ts) (hclose : mark "\x7d" ∉ ts) (hinner : Nested inner)
      (h : Nested rest) : Nested ((ts ++ [mark "\x7b"]) :: (inner ++ [mark "\x7d"] :: rest))

theorem Nested.append {first second : List (List CToken)} (h : Nested first)
    (h' : Nested second) : Nested (first ++ second) := by
  induction h with
  | nil => exact h'
  | plain hopen hclose _ ih => exact .plain hopen hclose ih
  | block hstart hopen hclose hinner _ _ ih =>
    rw [List.cons_append, List.append_assoc, List.cons_append]
    exact .block hstart hopen hclose hinner ih

/-- A token that has nothing to do with a variable, a jump, a label or a block. -/
def isFixed : CToken → Bool
  | .name text => ((reserved.erase "goto").map String.toList).contains text
  | .number _ => true
  | .punctuator text => text ∉ [[':'], ['\x7b'], ['\x7d']]

end C

namespace Grammar

open C (word mark)

/-! ## The tokens of a line -/

/-- What a token is that is not part of a jump, a label or a block. -/
inductive Ordinary (uses : List Use) : C.CToken → Prop
  | fixed {c : C.CToken} (h : C.isFixed c) : Ordinary uses c
  | name {u : Use} (h : u ∈ uses) (hrole : u.role = .read ∨ u.role = .target) :
      Ordinary uses (.name (Target.name u.name).toList)

theorem Ordinary.mono {us vs : List Use} (h : us ⊆ vs) {c : C.CToken} (hc : Ordinary us c) :
    Ordinary vs c := by
  cases hc with
  | fixed hc => exact .fixed hc
  | name hu hrole => exact .name (h hu) hrole

theorem Ordinary.operator (uses : List Use) (op : Operator) :
    Ordinary uses (mark op.spelling) :=
  .fixed (by cases op <;> rfl)

theorem targetName_notMem_reserved (name : String) :
    (Target.name name).toList ∉ C.reserved.map String.toList := by
  have hhead : ∀ w ∈ C.reserved.map String.toList, ¬ "t_".toList <+: w := by decide
  intro hmem
  refine hhead _ hmem ?_
  rw [Target.name, String.toList_append]
  exact List.prefix_append _ _

theorem targetName_injective {x y : String}
    (h : (Target.name x).toList = (Target.name y).toList) : x = y := by
  rw [Target.name, Target.name, String.toList_append, String.toList_append] at h
  exact String.toList_injective (List.append_cancel_left h)

theorem targetName_ne {word : String} (hword : word ∈ C.reserved) (name : String) :
    C.CToken.name (Target.name name).toList ≠ C.word word := by
  intro heq
  have hmem := List.mem_map_of_mem (f := String.toList) hword
  rw [← C.CToken.name.inj heq] at hmem
  exact targetName_notMem_reserved _ hmem

theorem Ordinary.notMem {uses : List Use} {c : C.CToken} (h : Ordinary uses c) :
    c ∉ [word "goto", mark ":", mark "\x7b", mark "\x7d"] := by
  cases h with
  | fixed h =>
    have hnot : ∀ d ∈ [word "goto", mark ":", mark "\x7b", mark "\x7d"], C.isFixed d = false := by
      decide
    intro hmem
    rw [hnot c hmem] at h
    cases h
  | name _ _ =>
    intro hmem
    simp only [mark, List.mem_cons, List.not_mem_nil, or_false, reduceCtorEq] at hmem
    exact targetName_ne (by decide) _ hmem

theorem Ordinary.use {uses : List Use} {v : List Char} (h : Ordinary uses (.name v))
    (hfree : v ∉ C.reserved.map String.toList) :
    ∃ u ∈ uses, (u.role = .read ∨ u.role = .target) ∧ v = (Target.name u.name).toList := by
  cases h with
  | fixed h =>
    have hmem : v ∈ (C.reserved.erase "goto").map String.toList := List.contains_iff_mem.1 h
    exact absurd (List.map_subset _ List.erase_subset hmem) hfree
  | name hu hrole => exact ⟨_, hu, hrole, rfl⟩

def OrdinaryOrBrace (uses : List Use) (c : C.CToken) : Prop :=
  Ordinary uses c ∨ c = mark "\x7b" ∨ c = mark "\x7d"

theorem OrdinaryOrBrace.notMem {uses : List Use} {c : C.CToken} (h : OrdinaryOrBrace uses c) :
    c ∉ [word "goto", mark ":"] := by
  rcases h with h | rfl | rfl
  · exact fun hmem => h.notMem (List.subset_append_left _ [mark "\x7b", mark "\x7d"] hmem)
  · decide
  · decide

theorem Chain.ordinary {operators : List Kind} {α : Type} {uses : α → List Use}
    {tokens : α → List Token}
    (hoperators : ∀ k ∈ operators, ∃ op, k = .operator op ∧ op ≠ .assign)
    (h : ∀ a, (∀ t ∈ tokens a, Written t) → ∀ t ∈ tokens a, Ordinary (uses a) (cToken t))
    {c : Chain operators α} (hwritten : ∀ t ∈ c.tokens tokens, Written t) :
    ∀ t ∈ c.tokens tokens, Ordinary (c.uses uses) (cToken t) := by
  rw [Chain.tokens, List.forall_mem_append] at hwritten ⊢
  obtain ⟨hhead, htail⟩ := hwritten
  refine ⟨fun t ht => (h _ hhead t ht).mono (List.subset_append_left _ _), fun t ht => ?_⟩
  obtain ⟨link, hlink, ht⟩ := List.mem_flatMap.1 ht
  have hwritten : ∀ u ∈ linkTokens tokens link, Written u := fun u hu =>
    htail u (List.mem_flatMap.2 ⟨link, hlink, hu⟩)
  obtain ⟨hop, hoperand⟩ := List.forall_mem_cons.1 hwritten
  rcases List.mem_cons.1 ht with rfl | ht
  · obtain ⟨hkind, _⟩ := leaf_operator hoperators link.1
    rw [cToken_operator hop hkind]
    exact .operator _ _
  · refine (h _ hoperand t ht).mono fun u hu => List.mem_append_right _ ?_
    exact List.mem_flatMap.2 ⟨link, hlink, hu⟩

theorem Unary.ordinary {u : Unary} (h : ∀ t ∈ u.tokens, Written t) :
    ∀ t ∈ u.tokens, Ordinary u.uses (cToken t) := by
  obtain ⟨sign, operand⟩ := u
  have hoperand : Ordinary operand.uses (cToken operand.token) := by
    cases operand with
    | number t =>
      rw [Primary.token, cToken_number]
      exact .fixed rfl
    | ident t =>
      rw [Primary.token, cToken_identifier]
      exact .name (u := ⟨.read, t.1⟩) List.mem_cons_self (.inl rfl)
  cases sign with
  | none => simpa [Unary.tokens, Unary.uses] using hoperand
  | some sign =>
    have hsign : Ordinary operand.uses (cToken sign.1) := by
      rw [cToken_operator (h sign.1 (by simp [Unary.tokens])) (operatorOf_sum sign.2).1]
      exact .operator _ _
    simpa [Unary.tokens, Unary.uses] using ⟨hsign, hoperand⟩

theorem Expression.ordinary {e : Expression} (h : ∀ t ∈ Expression.tokens e, Written t) :
    ∀ t ∈ Expression.tokens e, Ordinary (Expression.uses e) (cToken t) :=
  Chain.ordinary (by simp) (fun _ => Chain.ordinary (by simp) fun _ => Unary.ordinary) h

theorem Comparison.ordinary {c : Comparison} (h : ∀ t ∈ Comparison.tokens c, Written t) :
    ∀ t ∈ Comparison.tokens c, Ordinary (Comparison.uses c) (cToken t) :=
  Chain.ordinary (by simp) (fun _ => Expression.ordinary) h

/-! ## Lines -/

namespace Line

def uses : Line → List Use
  | text _ | skip | close => []
  | value e => Expression.uses e
  | label name => [⟨.label, name.1⟩]
  | jump name => [⟨.jump, name.1⟩]
  | assign name e => ⟨.target, name.1⟩ :: Expression.uses e
  | guard name | zero name => [⟨.target, name.1⟩]
  | head _ condition => Comparison.uses condition

def inner : Line → List C.CToken
  | guard name =>
    [word "if", mark "(", .number ['0'], mark "==", word "scanf", mark "(", mark ",", mark "&",
      cToken name.1, mark ")", mark ")"]
  | head form condition =>
    word form.word :: mark "(" :: ((Comparison.tokens condition).map cToken ++ [mark ")"])
  | close => []
  | l => l.cTokens

def brace : Line → List C.CToken
  | guard _ | head _ _ => [mark "\x7b"]
  | close => [mark "\x7d"]
  | _ => []

theorem cTokens_eq (l : Line) : l.cTokens = l.inner ++ l.brace := by
  cases l <;> simp [cTokens, inner, brace]

/-- Without its brace a line is a label, a jump, or has only ordinary tokens. -/
theorem inner_cases {l : Line} (h : ∀ t ∈ l.tokens, Written t) :
    (∃ name, l = label name) ∨ (∃ name, l = jump name) ∨ ∀ c ∈ l.inner, Ordinary l.uses c := by
  have hfixed : ∀ {uses : List Use} {ts : List C.CToken}, ts.all C.isFixed →
      ∀ c ∈ ts, Ordinary uses c := fun hall c hc => .fixed (List.all_eq_true.1 hall c hc)
  have htarget : ∀ {name : Leaf [.identifier]} {uses : List Use}, ⟨.target, name.1⟩ ∈ uses →
      Ordinary uses (cToken name.1) := by
    intro name uses hmem
    rw [cToken_identifier]
    exact .name (u := ⟨.target, name.1⟩) hmem (.inr rfl)
  cases l with
  | text t | skip => exact .inr (.inr (hfixed rfl))
  | value e =>
    simp only [inner, cTokens, List.forall_mem_append, List.forall_mem_map]
    exact .inr (.inr ⟨hfixed rfl, Expression.ordinary h, hfixed rfl⟩)
  | label name => exact .inl ⟨name, rfl⟩
  | jump name => exact .inr (.inl ⟨name, rfl⟩)
  | assign name e =>
    obtain ⟨_, h⟩ := List.forall_mem_cons.1 h
    have hvalue : ∀ t ∈ Expression.tokens e, Ordinary (assign name e).uses (cToken t) :=
      fun t ht => (Expression.ordinary h t ht).mono (List.subset_cons_self _ _)
    refine .inr (.inr (List.forall_mem_cons.2 ⟨htarget List.mem_cons_self, ?_⟩))
    rw [List.forall_mem_cons, List.forall_mem_append, List.forall_mem_map]
    exact ⟨.fixed rfl, hvalue, hfixed rfl⟩
  | guard name =>
    have hsplit : (guard name).inner = [word "if", mark "(", .number ['0'], mark "==",
        word "scanf", mark "(", mark ",", mark "&"] ++ (cToken name.1 :: [mark ")", mark ")"]) := rfl
    rw [hsplit]
    exact .inr (.inr (List.forall_mem_append.2
      ⟨hfixed rfl, List.forall_mem_cons.2 ⟨htarget List.mem_cons_self, hfixed rfl⟩⟩))
  | zero name =>
    exact .inr (.inr (List.forall_mem_cons.2 ⟨htarget List.mem_cons_self, hfixed rfl⟩))
  | head form condition =>
    rw [inner, List.forall_mem_cons, List.forall_mem_cons, List.forall_mem_append,
      List.forall_mem_map]
    exact .inr (.inr
      ⟨.fixed (by cases form <;> rfl), .fixed rfl, Comparison.ordinary h, hfixed rfl⟩)
  | close => simp [inner]

theorem inner_noBrace {l : Line} (h : ∀ t ∈ l.tokens, Written t) :
    mark "\x7b" ∉ l.inner ∧ mark "\x7d" ∉ l.inner := by
  rcases inner_cases h with ⟨name, rfl⟩ | ⟨name, rfl⟩ | hall
  · simp [inner, cTokens, cToken_identifier, mark]
  · simp [inner, cTokens, cToken_identifier, word, mark]
  · exact ⟨fun hmem => (hall _ hmem).notMem (by simp), fun hmem => (hall _ hmem).notMem (by simp)⟩

theorem cTokens_cases {l : Line} (h : ∀ t ∈ l.tokens, Written t) :
    (∃ name, l = label name) ∨ (∃ name, l = jump name) ∨
      ∀ c ∈ l.cTokens, OrdinaryOrBrace l.uses c := by
  refine (inner_cases h).imp_right (Or.imp_right fun hall c hc => ?_)
  rw [cTokens_eq, List.mem_append] at hc
  rcases hc with hc | hc
  · exact .inl (hall c hc)
  · cases l <;> simp_all [brace, OrdinaryOrBrace]

theorem head_ne_float (l : Line) : l.cTokens.head? ≠ some (word "float") := by
  have hname : ∀ name : Leaf [.identifier], cToken name.1 ≠ word "float" := fun name => by
    rw [cToken_identifier]
    exact targetName_ne (by decide) _
  cases l with
  | text | value | skip | close | jump | guard => simp [cTokens, word, mark]
  | label name | assign name e | zero name => exact fun h => hname name (Option.some.inj h)
  | head form condition => cases form <;> simp [cTokens, word, BlockForm.word]

theorem toList_label (name : Leaf [.identifier]) (precision : Int) :
    ((label name).code precision).toList = C.label (Target.name name.1.text).toList := by
  rw [code, String.toList_append]
  rfl

theorem toList_jump (name : Leaf [.identifier]) (precision : Int) :
    ((jump name).code precision).toList = C.jump (Target.name name.1.text).toList := by
  rw [code, String.toList_append, String.toList_append, List.append_assoc]
  rfl

theorem named_label (l : Line) :
    named .label l.uses = match l with
      | label name => [name.1.text]
      | _ => [] := by
  have hreads : ∀ {uses : List Use}, (∀ u ∈ uses, u.role = .read) → named .label uses = [] := by
    intro uses h
    rw [named, List.filter_eq_nil_iff.2 fun u hu => by simp [h u hu], List.map_nil]
  cases l with
  | value e => exact hreads (Expression.uses_read e)
  | assign name e =>
    rw [uses, ← List.singleton_append, named_append, hreads (Expression.uses_read e)]
    rfl
  | head form condition => exact hreads (Chain.uses_read Expression.uses_read condition.1)
  | text | label | jump | guard | zero | skip | close => rfl

/-- Two lines with the same text, one of them a label, are the same label. -/
theorem eq_label_of_code {l : Line} (h : ∀ t ∈ l.tokens, Written t) {name : Leaf [.identifier]}
    (hname : Written name.1) {precision : Int}
    (heq : (l.code precision).toList = ((label name).code precision).toList) :
    ∃ other : Leaf [.identifier], l = label other ∧ other.1.text = name.1.text := by
  have htokens : l.cTokens = (label name).cTokens := by
    have hread := reads (l := label name) (List.forall_mem_singleton.2 hname) precision
    rw [← heq, reads h] at hread
    exact Option.some.inj hread
  have hcolon : mark ":" ∈ l.cTokens := by
    rw [htokens]
    simp [cTokens]
  rcases cTokens_cases h with ⟨other, rfl⟩ | ⟨other, rfl⟩ | hall
  · refine ⟨other, rfl, ?_⟩
    rw [toList_label, toList_label] at heq
    exact targetName_injective (List.append_cancel_right heq)
  · simp [cTokens, cToken_identifier, word, mark] at hcolon
  · exact absurd (by simp) (hall _ hcolon).notMem

end Line

theorem count_label {ls : List Line} (h : ∀ l ∈ ls, ∀ t ∈ l.tokens, Written t)
    {name : Leaf [.identifier]} (hname : Written name.1) (precision : Int) :
    (ls.map fun l => (l.code precision).toList).count (C.label (Target.name name.1.text).toList) =
      (named .label (ls.flatMap Line.uses)).count name.1.text := by
  induction ls with
  | nil => rfl
  | cons l ls ih =>
    obtain ⟨hl, hls⟩ := List.forall_mem_cons.1 h
    rw [List.map_cons, List.flatMap_cons, named_append, List.count_append, ← ih hls, Nat.add_comm,
      List.count_cons, ← Line.toList_label name precision, Nat.add_right_inj]
    by_cases heq : (l.code precision).toList = ((Line.label name).code precision).toList
    · obtain ⟨other, rfl, htext⟩ := Line.eq_label_of_code hl hname heq
      simp [Line.named_label, heq, htext]
    · have hnone : name.1.text ∉ named .label l.uses := by
        intro hmem
        rw [l.named_label] at hmem
        cases l with
        | label other =>
          rw [Line.toList_label, Line.toList_label, List.mem_singleton.1 hmem] at heq
          exact heq rfl
        | _ => cases hmem
      simp [heq, List.count_eq_zero.2 hnone]

theorem nested_cons {l : Line} (h : ∀ t ∈ l.tokens, Written t) (hplain : l.brace = [])
    {rest : List (List C.CToken)} (hrest : C.Nested rest) : C.Nested (l.cTokens :: rest) := by
  obtain ⟨hopen, hclose⟩ := Line.inner_noBrace h
  rw [l.cTokens_eq, hplain, List.append_nil]
  exact .plain hopen hclose hrest

theorem nested_block {l : Line} (h : ∀ t ∈ l.tokens, Written t) (hopens : l.brace = [mark "\x7b"])
    (hstart : l.inner.head? ∈ [some (word "int"), some (word "if"), some (word "while")])
    {inner : List Line} (hinner : C.Nested (inner.map Line.cTokens)) :
    C.Nested ((l :: (inner ++ [Line.close])).map Line.cTokens) := by
  obtain ⟨hopen, hclose⟩ := Line.inner_noBrace h
  rw [List.map_cons, List.map_append, l.cTokens_eq, hopens]
  exact .block hstart hopen hclose hinner .nil

theorem nested_flatMap {body : List Statement}
    (h : ∀ s ∈ body, C.Nested (s.lines.map Line.cTokens)) :
    C.Nested ((bodyLines body).map Line.cTokens) := by
  induction body with
  | nil => exact .nil
  | cons s rest ih =>
    obtain ⟨hs, hrest⟩ := List.forall_mem_cons.1 h
    rw [bodyLines, List.map_append]
    exact hs.append (ih hrest)

theorem Statement.nested (s : Statement) (h : ∀ l ∈ s.lines, ∀ t ∈ l.tokens, Written t) :
    C.Nested (s.lines.map Line.cTokens) := by
  induction s using Statement.induction with
  | print word printed ending =>
    rw [Statement.lines, List.forall_mem_singleton] at h
    cases printed with
    | text t | value e => exact nested_cons h rfl .nil
  | label | goto | assign =>
    rw [Statement.lines, List.forall_mem_singleton] at h
    exact nested_cons h rfl .nil
  | input word name ending =>
    rw [Statement.lines] at h ⊢
    simp only [List.forall_mem_cons] at h
    obtain ⟨hguard, hzero, hskip, _⟩ := h
    have hinner : C.Nested ([Line.zero name, .skip].map Line.cTokens) :=
      nested_cons hzero rfl (nested_cons hskip rfl .nil)
    exact nested_block hguard rfl (by simp [Line.inner]) hinner
  | block form word condition follower gap body closer ending ih =>
    rw [Statement.lines, List.forall_mem_cons, List.forall_mem_append] at h
    obtain ⟨hhead, hbody, _⟩ := h
    rw [Statement.lines]
    refine nested_block hhead rfl (by cases form <;> simp [Line.inner, BlockForm.word])
      (nested_flatMap fun s hs => ih s hs ?_)
    rw [bodyLines_eq_flatMap] at hbody
    exact fun l hl => hbody l (List.mem_flatMap.2 ⟨s, hs, hl⟩)

/-! ## Uses of names -/

theorem Statement.lines_uses (s : Statement) : ∀ l ∈ s.lines, l.uses ⊆ s.uses := by
  induction s using Statement.induction with
  | print word printed ending =>
    rw [Statement.lines, List.forall_mem_singleton]
    cases printed with
    | text t | value e => exact List.Subset.refl _
  | label | goto | assign =>
    rw [Statement.lines, List.forall_mem_singleton]
    exact List.Subset.refl _
  | input word name ending => simp [Statement.lines, Line.uses, Statement.uses]
  | block form word condition follower gap body closer ending ih =>
    rw [Statement.lines, List.forall_mem_cons, List.forall_mem_append, bodyLines_eq_flatMap,
      Statement.uses, bodyUses_eq_flatMap]
    refine ⟨List.subset_append_left _ _, fun l hl u hu => ?_, by simp [Line.uses]⟩
    obtain ⟨s, hs, hl⟩ := List.mem_flatMap.1 hl
    exact List.mem_append_right _ (List.mem_flatMap.2 ⟨s, hs, ih s hs l hl hu⟩)

theorem bodyLines_labels {body : List Statement}
    (h : ∀ s ∈ body, named .label (s.lines.flatMap Line.uses) = named .label s.uses) :
    named .label ((bodyLines body).flatMap Line.uses) = named .label (bodyUses body) := by
  induction body with
  | nil => rfl
  | cons s rest ih =>
    obtain ⟨hs, hrest⟩ := List.forall_mem_cons.1 h
    rw [bodyLines, List.flatMap_append, named_append, hs, ih hrest, bodyUses, named_append]

/-- The target of INPUT stands in two lines, but a label stands in one. -/
theorem Statement.lines_labels (s : Statement) :
    named .label (s.lines.flatMap Line.uses) = named .label s.uses := by
  induction s using Statement.induction with
  | print word printed ending =>
    rw [Statement.lines, List.flatMap_singleton]
    cases printed with
    | text t | value e => rfl
  | label | goto | assign =>
    rw [Statement.lines, List.flatMap_singleton]
    rfl
  | input word name ending => rfl
  | block form word condition follower gap body closer ending ih =>
    rw [Statement.lines, List.flatMap_cons, List.flatMap_append, named_append, named_append,
      bodyLines_labels ih, Statement.uses, named_append]
    exact congrArg _ (List.append_nil _)

theorem bodyLines_uses {body : List Statement} {l : Line} (h : l ∈ bodyLines body) :
    l.uses ⊆ bodyUses body := by
  rw [bodyLines_eq_flatMap] at h
  rw [bodyUses_eq_flatMap]
  obtain ⟨s, hs, hl⟩ := List.mem_flatMap.1 h
  exact fun u hu => List.mem_flatMap.2 ⟨s, hs, s.lines_uses l hl hu⟩

theorem eraseDups_nodup (xs : List String) : xs.eraseDups.Nodup := by
  induction xs using List.reverseRecOn with
  | nil => exact List.nodup_nil
  | append_singleton xs x ih =>
    rw [Record.eraseDups_concat]
    split
    · exact ih
    · next hx =>
      rw [← List.concat_eq_append]
      exact ih.concat (by rwa [List.mem_eraseDups])

theorem declared_of_read {uses : List Use} (h : ReadsDeclared uses) {u : Use} (hu : u ∈ uses)
    (hrole : u.role = .read ∨ u.role = .target) : u.name ∈ named .target uses := by
  obtain ⟨before, after, rfl⟩ := List.append_of_mem hu
  rcases hrole with hrole | hrole
  · rw [named_append]
    exact List.mem_append_left _ (h before u after rfl hrole)
  · exact List.mem_map_of_mem (List.mem_filter.2 ⟨hu, by simpa using hrole⟩)

end Grammar

end TeenyLang
