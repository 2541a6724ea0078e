import TeenyLang.Proofs.EmittedTokens

set_option autoImplicit false

/-!
# The lines of a translation

Each statement becomes lines of a few forms. A text is put together from lines, and split at its
newlines it falls into the same lines again, since no line has a newline in it.
-/
namespace TeenyLang

/-- The lines of a text; what comes after its last newline is a line too. -/
def C.lines (text : String) : List (List Char) :=
  text.toList.splitOn '\n'

namespace Grammar

inductive Line where
  | text (token : Leaf [.string])
  | value (expression : Expression)
  | label (name : Leaf [.identifier])
  | jump (name : Leaf [.identifier])
  | assign (name : Leaf [.identifier]) (value : Expression)
  | guard (name : Leaf [.identifier])
  | zero (name : Leaf [.identifier])
  | skip
  | head (form : BlockForm) (condition : Comparison)
  | close

namespace Line

def scanNumber : String :=
  "if (0 == scanf(\"%f\", &"

def scanWord : String :=
  "scanf(\"%*s\");"

def code (precision : Int) : Line → String
  | text t => "printf(\"" ++ Target.string t.1.text ++ "\\n\");"
  | value e =>
    "printf(\"%." ++ toString precision ++ "f\\n\", (float)(" ++ Expression.code e ++ "));"
  | label name => Target.name name.1.text ++ ":;"
  | jump name => "goto " ++ Target.name name.1.text ++ ";"
  | assign name e => Target.name name.1.text ++ " = " ++ Expression.code e ++ ";"
  | guard name => scanNumber ++ Target.name name.1.text ++ ")) \x7b"
  | zero name => Target.name name.1.text ++ " = 0;"
  | skip => scanWord
  | head form condition => form.word ++ " (" ++ Comparison.code condition ++ ") \x7b"
  | close => "\x7d"

def tokens : Line → List Token
  | text t => [t.1]
  | value e => Expression.tokens e
  | label name | jump name | guard name | zero name => [name.1]
  | assign name e => name.1 :: Expression.tokens e
  | head _ condition => Comparison.tokens condition
  | skip | close => []

end Line

def Printed.asLine : Printed → Line
  | text t => .text t
  | value e => .value e

mutual

def Statement.lines : Statement → List Line
  | .print _ printed _ => [printed.asLine]
  | .label _ name _ => [.label name]
  | .goto _ name _ => [.jump name]
  | .assign _ name _ value _ => [.assign name value]
  | .input _ name _ => [.guard name, .zero name, .skip, .close]
  | .block form _ condition _ _ body _ _ => .head form condition :: (bodyLines body ++ [.close])

def bodyLines : List Statement → List Line
  | [] => []
  | s :: rest => s.lines ++ bodyLines rest

end

theorem bodyLines_eq_flatMap (body : List Statement) :
    bodyLines body = body.flatMap Statement.lines := by
  induction body with
  | nil => rfl
  | cons s rest ih => rw [bodyLines, ih, List.flatMap_cons]

theorem concatMap_flatMap {ι κ : Type} (code : κ → String) (f : ι → List κ) (xs : List ι) :
    concatMap code (xs.flatMap f) = concatMap (fun x => concatMap code (f x)) xs := by
  induction xs with
  | nil => rfl
  | cons x xs ih => rw [List.flatMap_cons, concatMap_append, ih, concatMap]

theorem concatMap_singleton {ι : Type} (code : ι → String) (x : ι) : concatMap code [x] = code x :=
  String.append_empty

theorem Statement.code_eq_lines (precision : Int) (s : Statement) :
    s.code precision = concatMap (fun l => line (l.code precision)) s.lines := by
  induction s using Statement.induction with
  | print word printed ending =>
    rw [Statement.code, Statement.lines, concatMap_singleton]
    cases printed with
    | text t | value e => rfl
  | label | goto | assign =>
    rw [Statement.code, Statement.lines, concatMap_singleton]
    rfl
  | input word name ending =>
    rw [Statement.code, inputCode, Statement.lines]
    simp only [concatMap, String.append_assoc, String.append_empty]
    rfl
  | block form word condition follower gap body closer ending ih =>
    have hbody : bodyCode precision body =
        concatMap (fun l => line (l.code precision)) (bodyLines body) := by
      rw [bodyCode_eq_concatMap, bodyLines_eq_flatMap, concatMap_flatMap]
      exact concatMap_congr ih
    rw [Statement.code, hbody, Statement.lines, concatMap, concatMap_append, concatMap_singleton,
      String.append_assoc]
    rfl

def Program.lines (precision : Int) (P : Program) : List String :=
  "#include <stdio.h>" :: "int main(void) \x7b" ::
    ((named .target P.uses).eraseDups.map (fun name => "float " ++ Target.name name ++ ";") ++
      ((bodyLines P.statements).map (Line.code precision) ++ ["return 0;", "\x7d"]))

theorem Program.code_eq_lines (precision : Int) (P : Program) :
    P.code precision = concatMap line (P.lines precision) := by
  have hbody : bodyCode precision P.statements =
      concatMap line ((bodyLines P.statements).map (Line.code precision)) := by
    rw [bodyCode_eq_concatMap, bodyLines_eq_flatMap, concatMap_map, concatMap_flatMap]
    exact concatMap_congr fun s _ => s.code_eq_lines precision
  simp only [Program.code, Program.lines, concatMap, concatMap_append, hbody, declarations,
    concatMap_map, String.append_assoc, String.append_empty]

/-! ## No newline in a line -/

def isCodeChar (c : Char) : Bool :=
  C.isNameChar c || ['.', ' ', '+', '-', '*', '/', '=', '!', '<', '>'].contains c

theorem codeChar_of_nameChar {c : Char} (h : C.isNameChar c) : isCodeChar c := by
  simp [isCodeChar, h]

theorem operator_codeChars (op : Operator) : ∀ c ∈ op.spelling.toList, isCodeChar c := by
  cases op <;> exact List.all_eq_true.1 (by decide)

theorem name_codeChars {t : Leaf [.identifier]} (h : Written t.1) :
    ∀ c ∈ (Target.name t.1.text).toList, C.isNameChar c := by
  have hname := h.name (List.mem_singleton.1 t.2)
  simp only [Target.name, String.toList_append, List.forall_mem_append]
  exact ⟨List.all_eq_true.1 (by decide), hname⟩

theorem Primary.codeChars {x : Primary} (h : Written x.token) :
    ∀ c ∈ x.code.toList, isCodeChar c := by
  cases x with
  | number t =>
    obtain ⟨c, run, hcode, hc, hrun⟩ := Written.number (t := t.1) h (List.mem_singleton.1 t.2)
    rw [Primary.code, hcode, List.forall_mem_cons]
    refine ⟨codeChar_of_nameChar (C.nameChar_of_digit hc).1, fun d hd => ?_⟩
    rcases hrun d hd with hdigit | rfl
    · exact codeChar_of_nameChar (C.nameChar_of_digit hdigit).1
    · rfl
  | ident t => exact fun c hc => codeChar_of_nameChar (name_codeChars h c hc)

theorem Unary.codeChars {u : Unary} (h : ∀ t ∈ u.tokens, Written t) :
    ∀ c ∈ u.code.toList, isCodeChar c := by
  obtain ⟨sign, operand⟩ := u
  have hoperand := Primary.codeChars (x := operand) (h _ (by simp [Unary.tokens]))
  cases sign with
  | none => exact hoperand
  | some sign =>
    have hsign : Written sign.1 := h sign.1 (by simp [Unary.tokens])
    rw [Unary.code, String.toList_append, List.forall_mem_append,
      hsign.operator (operatorOf_sum sign.2).1]
    exact ⟨operator_codeChars _, hoperand⟩

theorem Chain.codeChars {operators : List Kind} {α : Type} {code : α → String}
    {tokens : α → List Token}
    (hoperators : ∀ k ∈ operators, ∃ op, k = .operator op ∧ op ≠ .assign)
    (hcode : ∀ a, (∀ t ∈ tokens a, Written t) → ∀ c ∈ (code a).toList, isCodeChar c)
    {c : Chain operators α} (h : ∀ t ∈ c.tokens tokens, Written t) :
    ∀ d ∈ (Chain.code code c).toList, isCodeChar d := by
  obtain ⟨a, tail⟩ := c
  induction tail generalizing a with
  | nil => simpa [Chain.code, concatMap] using hcode a (by simpa [Chain.tokens] using h)
  | cons link tail ih =>
    rw [Chain.tokens_cons, List.forall_mem_append, List.forall_mem_cons] at h
    obtain ⟨hhead, hlink, htail⟩ := h
    obtain ⟨hkind, _⟩ := leaf_operator hoperators link.1
    have hsplit : (Chain.code code ⟨a, link :: tail⟩).toList = (code a).toList ++
        ' ' :: (link.1.1.text.toList ++ ' ' :: (Chain.code code ⟨link.2, tail⟩).toList) := by
      simp [Chain.code, concatMap, linkCode]
    rw [hsplit, hlink.operator hkind]
    simp only [List.forall_mem_append, List.forall_mem_cons]
    exact ⟨hcode a hhead, rfl, operator_codeChars _, rfl, ih link.2 htail⟩

theorem Expression.codeChars {e : Expression} (h : ∀ t ∈ Expression.tokens e, Written t) :
    ∀ c ∈ (Expression.code e).toList, isCodeChar c :=
  Chain.codeChars (by simp) (fun _ => Chain.codeChars (by simp) fun _ => Unary.codeChars) h

theorem Comparison.codeChars {c : Comparison} (h : ∀ t ∈ Comparison.tokens c, Written t) :
    ∀ d ∈ (Comparison.code c).toList, isCodeChar d :=
  Chain.codeChars (by simp) (fun _ => Expression.codeChars) h

theorem toString_chars (n : Int) : ∀ c ∈ (toString n).toList, isCodeChar c := by
  have hnat : ∀ m : Nat, ∀ c ∈ m.repr.toList, isCodeChar c := by
    intro m c hc
    rw [Nat.toList_repr] at hc
    have hdigit := Nat.isDigit_of_mem_toDigits (by decide) (by decide) hc
    exact codeChar_of_nameChar (C.nameChar_of_digit hdigit).1
  rw [Int.toString_eq_repr, Int.repr_eq_if]
  split
  · exact hnat _
  · rw [String.toList_append, List.forall_mem_append]
    exact ⟨List.all_eq_true.1 (by decide), hnat _⟩

theorem ne_of_codeChar {c d : Char} (hc : isCodeChar c) (hd : isCodeChar d = false) : c ≠ d := by
  rintro rfl
  rw [hc] at hd
  cases hd

/-! ### Strings -/

theorem Written.string {t : Leaf [.string]} (h : Written t.1) :
    ∀ c ∈ t.1.text.toList, c ∉ ['"', '\r', '\n', '\t', '\\', '%'] := by
  obtain ⟨lexeme, hspells⟩ := h
  rw [List.mem_singleton.1 t.2] at hspells
  generalize t.1.text = text at hspells
  cases hspells with
  | string hinside => simpa using hinside

/-- One character of a string: a mark after another is escaped, and all else is copied. -/
theorem stringCharsAfter_step (afterMark : Bool) (c : Char) (rest : List Char) :
    (afterMark = true ∧ c = '?' ∧ Target.stringCharsAfter afterMark (c :: rest) =
      '\\' :: '?' :: Target.stringCharsAfter true rest) ∨
    ((afterMark = true → c ≠ '?') ∧ Target.stringCharsAfter afterMark (c :: rest) =
      c :: Target.stringCharsAfter (c = '?') rest) := by
  rw [Target.stringCharsAfter]
  split
  · next hmark =>
    simp only [Bool.and_eq_true, decide_eq_true_eq] at hmark
    exact .inl ⟨hmark.1, hmark.2, rfl⟩
  · next hmark =>
    simp only [Bool.and_eq_true, decide_eq_true_eq, not_and] at hmark
    exact .inr ⟨hmark, rfl⟩

theorem mem_stringCharsAfter {afterMark : Bool} {text : List Char} {c : Char}
    (h : c ∈ Target.stringCharsAfter afterMark text) : c ∈ text ∨ c = '\\' := by
  induction text generalizing afterMark with
  | nil => cases h
  | cons d text ih =>
    rcases stringCharsAfter_step afterMark d text with ⟨-, rfl, hform⟩ | ⟨-, hform⟩ <;>
      rw [hform] at h
    · rcases List.mem_cons.1 h with rfl | h
      · exact .inr rfl
      rcases List.mem_cons.1 h with rfl | h
      · exact .inl List.mem_cons_self
      · exact (ih h).imp_left (List.mem_cons_of_mem _)
    · rcases List.mem_cons.1 h with rfl | h
      · exact .inl List.mem_cons_self
      · exact (ih h).imp_left (List.mem_cons_of_mem _)

theorem Line.newline_notMem {l : Line} (h : ∀ t ∈ l.tokens, Written t) (precision : Int) :
    '\n' ∉ (l.code precision).toList := by
  have hcode : ∀ {text : List Char}, (∀ c ∈ text, isCodeChar c) → '\n' ∉ text := fun h hmem =>
    ne_of_codeChar (h _ hmem) (by decide) rfl
  have hname : ∀ {name : Leaf [.identifier]}, Written name.1 →
      '\n' ∉ (Target.name name.1.text).toList := fun h =>
    hcode fun c hc => codeChar_of_nameChar (name_codeChars h c hc)
  cases l with
  | text t =>
    have hstring : '\n' ∉ (Target.string t.1.text).toList := by
      rw [Target.string, String.toList_ofList]
      intro hmem
      rcases mem_stringCharsAfter hmem with hmem | hmem
      · exact (h t.1 List.mem_cons_self).string _ hmem (by decide)
      · cases hmem
    simp only [code, String.toList_append, List.mem_append, not_or]
    exact ⟨⟨by decide, hstring⟩, by decide⟩
  | value e =>
    simp only [code, String.toList_append, List.mem_append, not_or]
    exact ⟨⟨⟨⟨by decide, hcode (toString_chars precision)⟩, by decide⟩,
      hcode (Expression.codeChars h)⟩, by decide⟩
  | label name | zero name =>
    simp only [code, String.toList_append, List.mem_append, not_or]
    exact ⟨hname (h name.1 List.mem_cons_self), by decide⟩
  | jump name | guard name =>
    simp only [code, String.toList_append, List.mem_append, not_or]
    exact ⟨⟨by decide, hname (h name.1 List.mem_cons_self)⟩, by decide⟩
  | assign name e =>
    obtain ⟨hwritten, h⟩ := List.forall_mem_cons.1 h
    simp only [code, String.toList_append, List.mem_append, not_or]
    exact ⟨⟨⟨hname hwritten, by decide⟩, hcode (Expression.codeChars h)⟩, by decide⟩
  | skip | close =>
    rw [code]
    decide
  | head form condition =>
    simp only [code, String.toList_append, List.mem_append, not_or]
    exact ⟨⟨⟨by cases form <;> decide, by decide⟩, hcode (Comparison.codeChars h)⟩, by decide⟩

/-! ## Splitting at the newlines -/

theorem lines_concatMap {ls : List String} (h : ∀ l ∈ ls, '\n' ∉ l.toList) :
    C.lines (concatMap line ls) = ls.map String.toList ++ [[]] := by
  induction ls with
  | nil => rfl
  | cons l ls ih =>
    obtain ⟨hl, hls⟩ := List.forall_mem_cons.1 h
    have hsplit : (concatMap line (l :: ls)).toList =
        l.toList ++ '\n' :: (concatMap line ls).toList := by
      simp [concatMap, line]
    rw [C.lines, hsplit, List.splitOn, List.splitOnP_append_cons_of_forall_mem ?_ _ rfl]
    · exact congrArg (l.toList :: ·) (ih hls)
    · intro c hc
      simp only [beq_eq_false_iff_ne]
      rintro rfl
      exact hl hc

theorem Statement.lines_tokens (s : Statement) : ∀ l ∈ s.lines, l.tokens ⊆ s.tokens := by
  induction s using Statement.induction with
  | print word printed ending =>
    rw [Statement.lines, List.forall_mem_singleton, Statement.tokens]
    cases printed with
    | text t | value e =>
      exact fun u hu => List.mem_cons_of_mem _ (List.mem_append_left _ hu)
  | label word name ending | goto word name ending =>
    rw [Statement.lines, List.forall_mem_singleton]
    simp [Line.tokens, Statement.tokens]
  | assign word name equals value ending =>
    rw [Statement.lines, List.forall_mem_singleton]
    intro t ht
    simp only [Line.tokens, Statement.tokens, List.mem_cons, List.mem_append] at ht ⊢
    tauto
  | input word name ending =>
    simp [Statement.lines, Line.tokens, Statement.tokens]
  | block form word condition follower gap body closer ending ih =>
    have hbody : ∀ l ∈ bodyLines body, l.tokens ⊆ bodyTokens body := by
      rw [bodyLines_eq_flatMap, bodyTokens_eq_flatMap]
      intro l hl t ht
      obtain ⟨s, hs, hl⟩ := List.mem_flatMap.1 hl
      exact List.mem_flatMap.2 ⟨s, hs, ih s hs l hl ht⟩
    simp only [Statement.lines, List.forall_mem_cons, List.forall_mem_append]
    refine ⟨fun t ht => ?_, fun l hl t ht => ?_, by simp [Line.tokens]⟩
    · exact List.mem_cons_of_mem _ (List.mem_append_left _ ht)
    · have := hbody l hl ht
      simp only [Statement.tokens, List.mem_cons, List.mem_append]
      tauto

theorem bodyLines_written {body : List Statement} (h : ∀ t ∈ bodyTokens body, Written t) :
    ∀ l ∈ bodyLines body, ∀ t ∈ l.tokens, Written t := by
  rw [bodyTokens_eq_flatMap] at h
  rw [bodyLines_eq_flatMap]
  intro l hl t ht
  obtain ⟨s, hs, hl⟩ := List.mem_flatMap.1 hl
  exact h t (List.mem_flatMap.2 ⟨s, hs, s.lines_tokens l hl ht⟩)

/-! ## Names -/

def UsesIn (uses : List Use) (tokens : List Token) : Prop :=
  ∀ u ∈ uses, u.token.kind = .identifier ∧ u.token ∈ tokens

theorem Chain.usesIn {operators : List Kind} {α : Type} {uses : α → List Use}
    {tokens : α → List Token} (h : ∀ a, UsesIn (uses a) (tokens a)) (c : Chain operators α) :
    UsesIn (c.uses uses) (c.tokens tokens) := by
  intro u hu
  rcases List.mem_append.1 hu with hu | hu
  · exact (h c.head u hu).imp_right (List.mem_append_left _)
  · obtain ⟨link, hlink, hu⟩ := List.mem_flatMap.1 hu
    refine (h link.2 u hu).imp_right fun hmem => List.mem_append_right _ ?_
    exact List.mem_flatMap.2 ⟨link, hlink, List.mem_cons_of_mem _ hmem⟩

theorem Unary.usesIn (u : Unary) : UsesIn u.uses u.tokens := by
  obtain ⟨sign, operand⟩ := u
  cases operand with
  | number t => simp [Unary.uses, Primary.uses, UsesIn]
  | ident t =>
    have hkind : t.1.kind = .identifier := List.mem_singleton.1 t.2
    simp [Unary.uses, Primary.uses, UsesIn, Unary.tokens, Primary.token, hkind]

theorem Expression.usesIn (e : Expression) : UsesIn (Expression.uses e) (Expression.tokens e) :=
  Chain.usesIn (Chain.usesIn Unary.usesIn) e

theorem Comparison.usesIn (c : Comparison) : UsesIn (Comparison.uses c) (Comparison.tokens c) :=
  Chain.usesIn Expression.usesIn c.1

theorem Statement.usesIn (s : Statement) : UsesIn s.uses s.tokens := by
  have hleaf : ∀ t : Leaf [.identifier], t.1.kind = .identifier := fun t =>
    List.mem_singleton.1 t.2
  induction s using Statement.induction with
  | print word printed ending =>
    cases printed with
    | text t => simp [Statement.uses, Printed.uses, UsesIn]
    | value e =>
      intro u hu
      exact (Expression.usesIn e u hu).imp_right fun hmem =>
        List.mem_cons_of_mem _ (List.mem_append_left _ hmem)
  | label word name ending | goto word name ending | input word name ending =>
    simp [Statement.uses, UsesIn, Statement.tokens, hleaf]
  | assign word name equals value ending =>
    rw [Statement.uses, UsesIn, List.forall_mem_cons]
    refine ⟨⟨hleaf name, by simp [Statement.tokens]⟩, fun u hu => ?_⟩
    refine (Expression.usesIn value u hu).imp_right fun hmem => ?_
    simp [Statement.tokens, hmem]
  | block form word condition follower gap body closer ending ih =>
    rw [Statement.uses, UsesIn, List.forall_mem_append, bodyUses_eq_flatMap]
    refine ⟨fun u hu => ?_, fun u hu => ?_⟩
    · refine (Comparison.usesIn condition u hu).imp_right fun hmem => ?_
      simp [Statement.tokens, hmem]
    · obtain ⟨s, hs, hu⟩ := List.mem_flatMap.1 hu
      refine (ih s hs u hu).imp_right fun hmem => ?_
      have hbody : u.token ∈ bodyTokens body := by
        rw [bodyTokens_eq_flatMap]
        exact List.mem_flatMap.2 ⟨s, hs, hmem⟩
      simp [Statement.tokens, hbody]

theorem Program.usesIn (P : Program) : UsesIn P.uses P.tokens := by
  intro u hu
  rw [Program.uses, bodyUses_eq_flatMap] at hu
  rw [Program.tokens, bodyTokens_eq_flatMap]
  obtain ⟨s, hs, hu⟩ := List.mem_flatMap.1 hu
  exact (s.usesIn u hu).imp_right fun hmem =>
    List.mem_append_right _ (List.mem_flatMap.2 ⟨s, hs, hmem⟩)

theorem named_chars {P : Program} (h : ∀ t ∈ P.tokens, Written t) {role : Role} {name : String}
    (hname : name ∈ named role P.uses) : ∀ c ∈ name.toList, C.isNameChar c := by
  obtain ⟨u, hu, rfl⟩ := List.mem_map.1 hname
  obtain ⟨hkind, hmem⟩ := P.usesIn u (List.mem_filter.1 hu).1
  exact (h u.token hmem).name hkind

/-- The text of a program splits into its lines. -/
theorem Program.lines_code {P : Program} (h : ∀ t ∈ P.tokens, Written t) (precision : Int) :
    C.lines (P.code precision) = (P.lines precision).map String.toList ++ [[]] := by
  rw [P.code_eq_lines precision]
  refine lines_concatMap ?_
  simp only [Program.lines, List.forall_mem_cons, List.forall_mem_append, List.forall_mem_map]
  refine ⟨by decide, by decide, fun name hname => ?_, fun l hl => ?_, by decide⟩
  · have hchars := named_chars h (List.mem_eraseDups.1 hname)
    simp only [Target.name, String.toList_append, List.mem_append, not_or]
    refine ⟨⟨by decide, by decide, fun hmem => ?_⟩, by decide⟩
    exact ne_of_codeChar (codeChar_of_nameChar (hchars _ hmem)) (by decide) rfl
  · have hbody : ∀ t ∈ bodyTokens P.statements, Written t := fun t ht =>
      h t (List.mem_append_right _ ht)
    exact Line.newline_notMem (bodyLines_written hbody l hl) precision

end Grammar

end TeenyLang
