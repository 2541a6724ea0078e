import TeenyLang.Proofs.CText
import TeenyLang.Proofs.Translation

set_option autoImplicit false

/-!
# The tokens of the translation of an expression

C splits the translation of an expression into one token for each token of the expression,
whatever comes after it that cannot become part of its last token.
-/
namespace TeenyLang.Grammar

/-- The operator that a token is. The operators of a chain are never `=`, which stands here for
all other tokens. -/
def operatorOf (t : Token) : Operator :=
  match t.kind with
  | .operator op => op
  | _ => .assign

/-- A token whose text is a lexeme of its kind. -/
def Written (t : Token) : Prop :=
  ∃ lexeme, Lexical.Spells t.kind t.text lexeme

theorem Written.operator {t : Token} {op : Operator} (h : Written t)
    (hkind : t.kind = .operator op) : t.text = op.spelling := by
  obtain ⟨lexeme, hspells⟩ := h
  rw [hkind] at hspells
  cases hspells with
  | operator hop => exact Lexical.mem_operatorTexts.1 hop

def stripZeros (digits : List Char) : List Char :=
  if (digits.dropWhile (· = '0')).isEmpty then ['0'] else digits.dropWhile (· = '0')

theorem stripZeros_ne_nil (digits : List Char) : stripZeros digits ≠ [] := by
  unfold stripZeros
  split
  · simp
  · next h => simpa using h

theorem stripZeros_digits {digits : List Char} (h : ∀ c ∈ digits, c.isDigit) :
    ∀ c ∈ stripZeros digits, c.isDigit := by
  unfold stripZeros
  split
  · simp
  · intro c hc
    exact h c ((List.dropWhile_sublist _).subset hc)

theorem digit_ne_point {digits : List Char} (h : ∀ c ∈ digits, c.isDigit) :
    ∀ c ∈ digits, decide (c ≠ '.') := by
  intro c hc
  have hpoint : c ≠ '.' := by
    rintro rfl
    exact absurd (h _ hc) (by decide)
  simpa using hpoint

theorem numberChars_whole {digits : List Char} (h : ∀ c ∈ digits, c.isDigit) :
    Target.numberChars digits = stripZeros digits := by
  rw [Target.numberChars, List.takeWhile_eq_self_iff.2 (digit_ne_point h),
    List.dropWhile_eq_nil_iff.2 (digit_ne_point h), List.append_nil]
  rfl

theorem numberChars_decimal {whole : List Char} (h : ∀ c ∈ whole, c.isDigit)
    (fraction : List Char) :
    Target.numberChars (whole ++ '.' :: fraction) = stripZeros whole ++ '.' :: fraction := by
  have hpoint : ∀ c ∈ ('.' :: fraction).head?, decide (c ≠ '.') = false := by simp
  rw [Target.numberChars, Lexical.takeWhile_run (digit_ne_point h) hpoint,
    Lexical.dropWhile_run (digit_ne_point h) hpoint]
  rfl

theorem Written.number {t : Token} (h : Written t) (hkind : t.kind = .number) :
    ∃ c run, (Target.number t.text).toList = c :: run ∧ c.isDigit ∧
      ∀ d ∈ run, d.isDigit ∨ d = '.' := by
  have hcons : ∀ digits fraction : List Char, (∀ c ∈ digits, c.isDigit) →
      (∀ c ∈ fraction, c.isDigit ∨ c = '.') →
      ∃ c run, stripZeros digits ++ fraction = c :: run ∧ c.isDigit ∧
        ∀ d ∈ run, d.isDigit ∨ d = '.' := by
    intro digits fraction hdigits hfraction
    obtain ⟨c, run, hstrip⟩ := List.exists_cons_of_ne_nil (stripZeros_ne_nil digits)
    have hall := stripZeros_digits hdigits
    rw [hstrip, List.forall_mem_cons] at hall
    refine ⟨c, run ++ fraction, by rw [hstrip, List.cons_append], hall.1, ?_⟩
    exact List.forall_mem_append.2 ⟨fun d hd => .inl (hall.2 d hd), hfraction⟩
  obtain ⟨lexeme, hspells⟩ := h
  rw [hkind] at hspells
  generalize t.text = text at hspells
  cases hspells with
  | whole hne hdigits =>
    obtain ⟨c, run, hrun⟩ := hcons _ [] hdigits (by simp)
    rw [List.append_nil] at hrun
    exact ⟨c, run, by simpa [Target.number, numberChars_whole hdigits] using hrun⟩
  | @decimal whole fraction hne hwhole hne' hfraction =>
    obtain ⟨c, run, hrun⟩ := hcons whole ('.' :: fraction) hwhole
      (List.forall_mem_cons.2 ⟨.inr rfl, fun d hd => .inl (hfraction d hd)⟩)
    exact ⟨c, run, by
      rwa [Target.number, String.toList_ofList, String.toList_ofList, numberChars_decimal hwhole]⟩

theorem Written.name {t : Token} (h : Written t) (hkind : t.kind = .identifier) :
    ∀ c ∈ t.text.toList, C.isNameChar c := by
  obtain ⟨lexeme, hspells⟩ := h
  rw [hkind] at hspells
  generalize t.text = text at hspells
  cases hspells with
  | identifier hfirst hmore hfree =>
    rw [String.toList_ofList, List.forall_mem_cons]
    exact ⟨by simp [C.isNameChar, Char.isAlphanum, hfirst], fun c hc => by
      simp [C.isNameChar, hmore c hc]⟩

def cToken (t : Token) : C.CToken :=
  match t.kind with
  | .number => .number (Target.number t.text).toList
  | .identifier => .name (Target.name t.text).toList
  | _ => .punctuator t.text.toList

theorem cToken_number (t : Leaf [.number]) :
    cToken t.1 = .number (Target.number t.1.text).toList := by
  simp [cToken, List.mem_singleton.1 t.2]

theorem cToken_identifier (t : Leaf [.identifier]) :
    cToken t.1 = .name (Target.name t.1.text).toList := by
  simp [cToken, List.mem_singleton.1 t.2]

/-- C splits `code` into the given tokens, whatever follows. -/
def Lexes (code : String) (ts : List Token) : Prop :=
  ∀ rest, C.Ends rest →
    C.tokens (code.toList ++ rest) = (C.tokens rest).map (ts.map cToken ++ ·)

theorem tokens_name (name : String) (h : ∀ c ∈ name.toList, C.isNameChar c) {rest : List Char}
    (hrest : C.Ends rest) :
    C.tokens ((Target.name name).toList ++ rest) =
      (C.tokens rest).map (.name (Target.name name).toList :: ·) := by
  have hcode : (Target.name name).toList = 't' :: '_' :: name.toList := by simp [Target.name]
  have hstart : C.isNameStart 't' := by decide
  have hunder : C.isNameChar '_' := by decide
  rw [hcode, C.tokens_name hstart (List.forall_mem_cons.2 ⟨hunder, h⟩) hrest]

theorem Primary.lexes {x : Primary} (h : Written x.token) :
    (∃ c more, x.code.toList = c :: more ∧ c.isAlphanum) ∧ Lexes x.code [x.token] := by
  cases x with
  | number t =>
    have hkind : t.1.kind = .number := List.mem_singleton.1 t.2
    obtain ⟨c, run, hcode, hc, hrun⟩ := Written.number (t := t.1) h hkind
    refine ⟨⟨c, run, hcode, by simp [Char.isAlphanum, hc]⟩, fun rest hrest => ?_⟩
    rw [Primary.code, hcode, C.tokens_number hc hrun hrest, Primary.token, List.map_singleton,
      cToken_number, hcode]
    rfl
  | ident t =>
    have hkind : t.1.kind = .identifier := List.mem_singleton.1 t.2
    refine ⟨⟨'t', '_' :: t.1.text.toList, by simp [Primary.code, Target.name], by decide⟩,
      fun rest hrest => ?_⟩
    rw [Primary.code, tokens_name _ (Written.name (t := t.1) h hkind) hrest, Primary.token,
      List.map_singleton, cToken_identifier]
    rfl

theorem operatorOf_sum {t : Token} (h : t.kind ∈ sumOperators) :
    t.kind = .operator (operatorOf t) ∧ (operatorOf t = .plus ∨ operatorOf t = .minus) := by
  simp only [sumOperators, List.mem_cons, List.not_mem_nil, or_false] at h
  rcases h with h | h <;> simp [operatorOf, h]

theorem cToken_operator {t : Token} {op : Operator} (h : Written t) (hkind : t.kind = .operator op) :
    cToken t = .punctuator op.spelling.toList := by
  simp [cToken, hkind, h.operator hkind]

theorem Unary.lexes {u : Unary} (h : ∀ t ∈ u.tokens, Written t) : Lexes u.code u.tokens := by
  obtain ⟨sign, operand⟩ := u
  have hoperand : Written operand.token := h _ (by simp [Unary.tokens])
  obtain ⟨⟨c, more, hcode, hc⟩, hlexes⟩ := Primary.lexes hoperand
  cases sign with
  | none => exact hlexes
  | some sign =>
    intro rest hrest
    obtain ⟨hkind, hop⟩ := operatorOf_sum sign.2
    have hsign : Written sign.1 := h sign.1 (by simp [Unary.tokens])
    have hsplit : (Unary.code ⟨some sign, operand⟩).toList ++ rest =
        (operatorOf sign.1).spelling.toList ++ c :: (more ++ rest) := by
      simp [Unary.code, hsign.operator hkind, hcode]
    have hfound : C.punctuators.find? (·.isPrefixOf (operatorOf sign.1).spelling.toList) =
        some (operatorOf sign.1).spelling.toList := by
      rcases hop with hop | hop <;> rw [hop] <;> decide
    rw [hsplit, C.tokens_punctuator (.inl hc) hfound (by rcases hop with h | h <;> rw [h] <;> decide),
      ← List.cons_append, ← hcode, hlexes rest hrest, Option.map_map]
    simp [Unary.tokens, cToken_operator hsign hkind, Function.comp_def]

section Chains

variable {operators : List Kind} {α : Type}

theorem leaf_operator {p : Operator → Prop} (h : ∀ k ∈ operators, ∃ op, k = .operator op ∧ p op)
    (t : Leaf operators) : t.1.kind = .operator (operatorOf t.1) ∧ p (operatorOf t.1) := by
  obtain ⟨op, hkind, hop⟩ := h _ t.2
  simp [operatorOf, hkind, hop]

theorem Chain.tokens_cons (tokens : α → List Token) (a : α) (link : Leaf operators × α)
    (tail : List (Leaf operators × α)) :
    Chain.tokens tokens ⟨a, link :: tail⟩ =
      tokens a ++ link.1.1 :: Chain.tokens tokens ⟨link.2, tail⟩ := by
  simp [Chain.tokens, linkTokens]

theorem Chain.lexes {code : α → String} {tokens : α → List Token}
    (hoperators : ∀ k ∈ operators, ∃ op, k = .operator op ∧ op ≠ .assign)
    (hlexes : ∀ a, (∀ t ∈ tokens a, Written t) → Lexes (code a) (tokens a))
    {c : Chain operators α} (h : ∀ t ∈ c.tokens tokens, Written t) :
    Lexes (Chain.code code c) (c.tokens tokens) := by
  obtain ⟨a, tail⟩ := c
  induction tail generalizing a with
  | nil =>
    have hhead := hlexes a (by simpa [Chain.tokens] using h)
    simpa [Chain.code, concatMap, Chain.tokens] using hhead
  | cons link tail ih =>
    rw [Chain.tokens_cons, List.forall_mem_append, List.forall_mem_cons] at h
    obtain ⟨hhead, hlink, htail⟩ := h
    obtain ⟨hkind, _⟩ := leaf_operator hoperators link.1
    intro rest hrest
    have hcode : (Chain.code code ⟨a, link :: tail⟩).toList ++ rest =
        (code a).toList ++ ' ' :: ((operatorOf link.1.1).spelling.toList ++
          ' ' :: ((Chain.code code ⟨link.2, tail⟩).toList ++ rest)) := by
      simp [Chain.code, concatMap, linkCode, hlink.operator hkind]
    have hends : C.Ends (' ' :: ((operatorOf link.1.1).spelling.toList ++
        ' ' :: ((Chain.code code ⟨link.2, tail⟩).toList ++ rest))) := by
      intro c hc
      cases hc
      decide
    rw [hcode, hlexes a hhead _ hends, C.tokens_space, C.tokens_operator, ih link.2 htail rest hrest,
      Chain.tokens_cons, Option.map_map, Option.map_map]
    simp [cToken_operator hlink hkind, Function.comp_def]

end Chains

theorem Term.lexes {t : Term} (h : ∀ u ∈ Term.tokens t, Written u) :
    Lexes (Term.code t) (Term.tokens t) :=
  Chain.lexes (by simp) (fun _ => Unary.lexes) h

theorem Expression.lexes {e : Expression} (h : ∀ t ∈ Expression.tokens e, Written t) :
    Lexes (Expression.code e) (Expression.tokens e) :=
  Chain.lexes (by simp) (fun _ => Term.lexes) h

theorem Comparison.lexes {c : Comparison} (h : ∀ t ∈ Comparison.tokens c, Written t) :
    Lexes (Comparison.code c) (Comparison.tokens c) :=
  Chain.lexes (by simp) (fun _ => Expression.lexes) h

end TeenyLang.Grammar
