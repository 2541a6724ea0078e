import TeenyLang.Proofs.CExpression

set_option autoImplicit false

/-!
# The grammar of C expressions

The tokens of C, the split of a text into longest tokens, and the expressions that have no
brackets, each as the grammar of C gives it. `tokens` finds that split and `read` finds the tree of
that grammar, so a text has no other.
-/
namespace TeenyLang.C

/-! ## Tokens -/

inductive IsNumber : List Char → Prop
  | digit {c : Char} (h : c.isDigit) : IsNumber [c]
  | point {c : Char} (h : c.isDigit) : IsNumber ['.', c]
  | more {text : List Char} {c : Char} (h : IsNumber text) (hc : isNameChar c ∨ c = '.') :
      IsNumber (text ++ [c])
  | exponent {text : List Char} {e sign : Char} (h : IsNumber text)
      (he : e ∈ ['e', 'E', 'p', 'P']) (hsign : sign = '+' ∨ sign = '-') :
      IsNumber (text ++ [e, sign])

inductive CToken.Valid : CToken → Prop
  | name {c : Char} {run : List Char} (hc : isNameStart c) (hrun : ∀ d ∈ run, isNameChar d) :
      Valid (.name (c :: run))
  | number {text : List Char} (h : IsNumber text) : Valid (.number text)
  | punctuator {text : List Char} (h : text ∈ punctuators) : Valid (.punctuator text)

/-- A token leads a text, and none that does so is longer. -/
structure Longest (t : CToken) (text : List Char) : Prop where
  valid : t.Valid
  leads : t.chars <+: text
  longest : ∀ u : CToken, u.Valid → u.chars <+: text → u.chars.length ≤ t.chars.length

/-- A text falls into longest tokens, with spaces between them. -/
inductive Splits : List Char → List CToken → Prop
  | nil : Splits [] []
  | space {c : Char} {rest : List Char} {ts : List CToken} (hc : isSpace c)
      (h : Splits rest ts) : Splits (c :: rest) ts
  | token {t : CToken} {rest : List Char} {ts : List CToken} (ht : Longest t (t.chars ++ rest))
      (h : Splits rest ts) : Splits (t.chars ++ rest) (t :: ts)

/-! ### Numbers -/

theorem nameChar_of_exponent {c : Char} (h : c ∈ ['e', 'E', 'p', 'P']) : isNameChar c :=
  List.all_eq_true.1 (by decide) c h

theorem sign_ne_exponent {c : Char} (h : c = '+' ∨ c = '-') : c ∉ ['e', 'E', 'p', 'P'] := by
  rcases h with rfl | rfl <;> decide

/-- A number whose last character is the letter of an exponent is one without it. -/
theorem IsNumber.init {text : List Char} {c : Char} (h : IsNumber (text ++ [c]))
    (hc : c ∈ ['e', 'E', 'p', 'P']) : IsNumber text := by
  generalize hwhole : text ++ [c] = whole at h
  have hlast : whole.getLast? = some c := by rw [← hwhole, List.getLast?_concat]
  have hinit : whole.dropLast = text := by rw [← hwhole, List.dropLast_concat]
  cases h with
  | digit hd | point hd =>
    cases hlast
    exact absurd hc (nameChar_of_digit hd).2.2.2
  | more h _ =>
    rw [List.dropLast_concat] at hinit
    exact hinit ▸ h
  | exponent h _ hsign =>
    rw [List.getLast?_append] at hlast
    cases hlast
    exact absurd hc (sign_ne_exponent hsign)

theorem IsNumber.append_numberRun {text : List Char} {last : Char} (h : IsNumber text)
    (hlast : text.getLast? = some last) (rest : List Char) :
    IsNumber (text ++ numberRun (last ∈ ['e', 'E', 'p', 'P']) rest) := by
  induction rest generalizing text last with
  | nil => simpa [numberRun] using h
  | cons c rest ih =>
    rw [numberRun]
    split
    · next htaken =>
      have hmore : IsNumber (text ++ [c]) := by
        by_cases hname : isNameChar c ∨ c = '.'
        · exact .more h hname
        · -- only a sign after the letter of an exponent is left
          obtain ⟨init, rfl⟩ : ∃ init, text = init ++ [last] :=
            ⟨_, (List.dropLast_append_getLast? last hlast).symm⟩
          have hsign : last ∈ ['e', 'E', 'p', 'P'] ∧ (c = '+' ∨ c = '-') := by
            simpa [not_or.1 hname] using htaken
          rw [List.append_assoc]
          exact .exponent (h.init hsign.1) hsign.1 hsign.2
      simpa using ih hmore (List.getLast?_concat ..)
    · simpa using h

def StartsNumber (c : Char) (rest : List Char) : Prop :=
  c.isDigit ∨ c = '.' ∧ rest.head?.any Char.isDigit

theorem StartsNumber.append {c : Char} {run : List Char} (h : StartsNumber c run)
    (rest : List Char) : StartsNumber c (run ++ rest) := by
  refine h.imp_right fun ⟨hpoint, hrun⟩ => ⟨hpoint, ?_⟩
  cases run with
  | nil => cases hrun
  | cons _ _ => exact hrun

theorem StartsNumber.head {c : Char} {rest : List Char} (h : StartsNumber c rest) :
    isNameStart c = false ∧ isSpace c = false := by
  rcases h with h | ⟨rfl, _⟩
  · exact ⟨(nameChar_of_digit h).2.1, (nameChar_of_digit h).2.2.1⟩
  · decide

/-- A number at the head of a text goes no further than the reader of numbers. -/
theorem IsNumber.numberRun_append {text : List Char} (h : IsNumber text) :
    ∃ c run last, text = c :: run ∧ text.getLast? = some last ∧
      StartsNumber c run ∧ ∀ rest, numberRun false (run ++ rest) =
        run ++ numberRun (last ∈ ['e', 'E', 'p', 'P']) rest := by
  induction h with
  | @digit c h =>
    refine ⟨c, [], c, rfl, rfl, .inl h, fun rest => ?_⟩
    rw [decide_eq_false (nameChar_of_digit h).2.2.2]
    rfl
  | @point c h =>
    refine ⟨'.', [c], c, rfl, rfl, .inr ⟨rfl, by simpa using h⟩, fun rest => ?_⟩
    simp [numberRun, (nameChar_of_digit h).1]
  | @more text d h hd ih =>
    obtain ⟨c, run, last, rfl, _, hstart, hrun⟩ := ih
    refine ⟨c, run ++ [d], d, rfl, List.getLast?_concat .., hstart.append _, fun rest => ?_⟩
    have htaken : isNameChar d || d = '.' := by simpa using hd
    rw [List.append_assoc, hrun, List.singleton_append, numberRun, if_pos (by simp [htaken])]
    simp
  | @exponent text e sign h he hsign ih =>
    obtain ⟨c, run, last, rfl, _, hstart, hrun⟩ := ih
    refine ⟨c, run ++ [e, sign], sign, rfl, ?_, hstart.append _, fun rest => ?_⟩
    · rw [List.getLast?_append]
      rfl
    · rw [List.append_assoc, hrun]
      simp [numberRun, nameChar_of_exponent he, he, hsign]

/-! ### The reader of tokens -/

theorem startsNumber_of_leads {text rest : List Char} {c : Char} (h : IsNumber text)
    (hleads : text <+: c :: rest) : StartsNumber c rest := by
  obtain ⟨d, run, _, rfl, _, hstart, _⟩ := h.numberRun_append
  obtain ⟨more, hmore⟩ := hleads
  cases hmore
  exact hstart.append more

theorem punctuator_head : ∀ p ∈ punctuators, ∀ c ∈ p.head?,
    isNameStart c = false ∧ c.isDigit = false ∧ isSpace c = false ∧
      (c = '.' → p = ['.'] ∨ p = ['.', '.', '.']) := by
  have hall : ∀ p ∈ punctuators, p.head?.all fun c => !isNameStart c && !c.isDigit && !isSpace c &&
      (c ≠ '.' || p = ['.'] || p = ['.', '.', '.']) := by decide
  intro p hp c hc
  have hhead := (Option.all_eq_true _ _).1 (hall p hp) c hc
  simp only [Bool.and_eq_true, Bool.or_eq_true, Bool.not_eq_true', decide_eq_true_eq] at hhead
  exact ⟨hhead.1.1.1, hhead.1.1.2, hhead.1.2, fun hpoint => by tauto⟩

theorem punctuator_leads {p rest : List Char} {c : Char} (hp : p ∈ punctuators)
    (hleads : p <+: c :: rest) :
    isNameStart c = false ∧ (StartsNumber c rest → p = ['.']) ∧ isSpace c = false := by
  cases p with
  | nil => exact absurd hp (by decide)
  | cons d p =>
    obtain ⟨rfl, hrest⟩ := List.cons_prefix_cons.1 hleads
    obtain ⟨hname, hdigit, hspace, hpoint⟩ := punctuator_head _ hp d rfl
    refine ⟨hname, fun hstart => ?_, hspace⟩
    rcases hstart with hstart | ⟨rfl, hstart⟩
    · rw [hdigit] at hstart
      cases hstart
    · refine (hpoint rfl).resolve_right fun hellipsis => ?_
      cases hellipsis
      obtain ⟨more, rfl⟩ := hrest
      cases hstart

/-- A token that leads a text is of the kind that the head of the text tells. -/
theorem CToken.Valid.leads {t : CToken} {c : Char} {rest : List Char} (h : t.Valid)
    (hleads : t.chars <+: c :: rest) :
    (∃ run, t = .name (c :: run) ∧ isNameStart c ∧ ∀ d ∈ run, isNameChar d) ∨
    (∃ run, t = .number (c :: run) ∧ StartsNumber c rest ∧ IsNumber (c :: run)) ∨
    ∃ p ∈ punctuators, t = .punctuator p ∧ isNameStart c = false ∧
      (StartsNumber c rest → p = ['.']) := by
  cases h with
  | @name d run hd hrun =>
    obtain ⟨rfl, _⟩ := List.cons_prefix_cons.1 hleads
    exact .inl ⟨run, rfl, hd, hrun⟩
  | number h =>
    have hstart := startsNumber_of_leads h hleads
    obtain ⟨d, run, _, rfl, _⟩ := h.numberRun_append
    obtain ⟨rfl, _⟩ := List.cons_prefix_cons.1 hleads
    exact .inr (.inl ⟨run, rfl, hstart, h⟩)
  | punctuator h =>
    obtain ⟨hname, hpoint, _⟩ := punctuator_leads h hleads
    exact .inr (.inr ⟨_, h, rfl, hname, hpoint⟩)

theorem longest_name {c : Char} {rest : List Char} (hc : isNameStart c) :
    Longest (.name ((c :: rest).takeWhile isNameChar)) (c :: rest) := by
  have hchar := nameChar_of_start hc
  refine ⟨?_, List.takeWhile_prefix _, fun u hu hleads => ?_⟩
  · rw [List.takeWhile_cons_of_pos hchar]
    exact .name hc fun d hd => List.mem_takeWhile_imp hd
  · rcases hu.leads hleads with ⟨run, rfl, _, hrun⟩ | ⟨run, rfl, hstart, _⟩ | ⟨p, _, rfl, hname, _⟩
    · exact Lexical.length_le_takeWhile (List.forall_mem_cons.2 ⟨hchar, hrun⟩) hleads
    · rw [hstart.head.1] at hc
      cases hc
    · rw [hname] at hc
      cases hc

theorem numberRun_prefix (afterExponent : Bool) (rest : List Char) :
    numberRun afterExponent rest <+: rest := by
  induction rest generalizing afterExponent with
  | nil => exact List.prefix_rfl
  | cons c rest ih =>
    rw [numberRun]
    split
    · exact List.cons_prefix_cons.2 ⟨rfl, ih _⟩
    · exact List.nil_prefix

theorem isNumber_of_starts {c : Char} {rest : List Char} (h : StartsNumber c rest) :
    IsNumber (c :: numberRun false rest) := by
  have hrun {d : Char} (hd : d.isDigit) : decide (d ∈ ['e', 'E', 'p', 'P']) = false :=
    decide_eq_false (nameChar_of_digit hd).2.2.2
  rcases h with hc | ⟨rfl, hrest⟩
  · have hnumber := (IsNumber.digit hc).append_numberRun List.getLast?_singleton rest
    rwa [hrun hc] at hnumber
  · cases rest with
    | nil => cases hrest
    | cons d rest =>
      have hd : d.isDigit := hrest
      have hnumber := (IsNumber.point hd).append_numberRun rfl rest
      rw [numberRun, if_pos (by simp [(nameChar_of_digit hd).1])]
      exact hnumber

theorem longest_number {c : Char} {rest : List Char} (hc : StartsNumber c rest) :
    Longest (.number (c :: numberRun false rest)) (c :: rest) := by
  refine ⟨.number (isNumber_of_starts hc),
    List.cons_prefix_cons.2 ⟨rfl, numberRun_prefix false rest⟩, fun u hu hleads => ?_⟩
  rcases hu.leads hleads with ⟨run, rfl, hname, _⟩ | ⟨run, rfl, _, h⟩ | ⟨p, _, rfl, _, hpoint⟩
  · rw [hc.head.1] at hname
    cases hname
  · obtain ⟨_, _, _, heq, _, _, hrun⟩ := h.numberRun_append
    cases heq
    obtain ⟨more, hmore⟩ := hleads
    cases hmore
    simp [CToken.chars, hrun]
  · rw [hpoint hc]
    simp [CToken.chars]

theorem punctuators_sorted : punctuators.Pairwise fun p q => q.length ≤ p.length := by
  decide

theorem longest_punctuator {c : Char} {rest p : List Char} (hname : isNameStart c = false)
    (hnumber : ¬ StartsNumber c rest)
    (hp : punctuators.find? (·.isPrefixOf (c :: rest)) = some p) :
    Longest (.punctuator p) (c :: rest) := by
  obtain ⟨hleads, before, after, hsplit, hbefore⟩ := List.find?_eq_some_iff_append.1 hp
  refine ⟨.punctuator (List.mem_of_find?_eq_some hp), List.isPrefixOf_iff_prefix.1 hleads,
    fun u hu huleads => ?_⟩
  rcases hu.leads huleads with ⟨run, rfl, h, _⟩ | ⟨run, rfl, h, _⟩ | ⟨q, hq, rfl, _⟩
  · rw [hname] at h
    cases h
  · exact absurd h hnumber
  · have hsorted := punctuators_sorted
    rw [hsplit, List.pairwise_append, List.pairwise_cons] at hsorted
    rw [hsplit, List.mem_append, List.mem_cons] at hq
    rcases hq with hq | rfl | hq
    · have hfound : q.isPrefixOf (c :: rest) := List.isPrefixOf_iff_prefix.2 huleads
      have hnot := hbefore q hq
      rw [hfound] at hnot
      cases hnot
    · exact Nat.le_refl _
    · exact hsorted.2.1.1 q hq

theorem readToken_of_startsNumber {c : Char} {rest : List Char} (h : StartsNumber c rest) :
    readToken (c :: rest) = some (.number (c :: numberRun false rest)) := by
  have hstart : c.isDigit || (c = '.' && rest.head?.any Char.isDigit) := by
    simpa [StartsNumber] using h
  simp [readToken, h.head.1, hstart]

theorem longest_of_readToken {text : List Char} {t : CToken} (h : readToken text = some t) :
    Longest t text := by
  cases text with
  | nil => cases h
  | cons c rest =>
    simp only [readToken] at h
    split at h
    · next hname =>
      cases h
      exact longest_name hname
    next hname =>
    split at h
    · next hnumber =>
      cases h
      exact longest_number (by simpa [StartsNumber] using hnumber)
    · next hnumber =>
      obtain ⟨p, hp, rfl⟩ := Option.map_eq_some_iff.1 h
      exact longest_punctuator (by simpa using hname) (by simpa [StartsNumber] using hnumber) hp

theorem CToken.Valid.exists_cons {t : CToken} (h : t.Valid) : ∃ c rest, t.chars = c :: rest := by
  cases h with
  | name => exact ⟨_, _, rfl⟩
  | number h =>
    obtain ⟨c, run, _, rfl, _⟩ := h.numberRun_append
    exact ⟨c, run, rfl⟩
  | punctuator h =>
    have hne : ∀ p ∈ punctuators, p ≠ [] := by decide
    exact List.exists_cons_of_ne_nil (hne _ h)

/-- A token is what its own characters are read as. -/
theorem CToken.Valid.readToken {t : CToken} (h : t.Valid) : readToken t.chars = some t := by
  cases h with
  | @name c run hc hrun =>
    have hall : ∀ d ∈ c :: run, isNameChar d := List.forall_mem_cons.2 ⟨nameChar_of_start hc, hrun⟩
    rw [CToken.chars, C.readToken, if_pos hc, List.takeWhile_eq_self_iff.2 hall]
  | number h =>
    obtain ⟨c, run, _, rfl, _, hstart, hrun⟩ := h.numberRun_append
    have hrun := hrun []
    rw [List.append_nil, numberRun, List.append_nil] at hrun
    rw [CToken.chars, readToken_of_startsNumber hstart, hrun]
  | @punctuator text h =>
    have hall : ∀ p ∈ punctuators, C.readToken p = some (.punctuator p) := by decide
    exact hall text h

theorem Longest.unique {text : List Char} {t u : CToken} (ht : Longest t text)
    (hu : Longest u text) : t = u := by
  have hchars : t.chars = u.chars :=
    (List.prefix_of_prefix_length_le ht.leads hu.leads
      (hu.longest t ht.valid ht.leads)).eq_of_length_le (ht.longest u hu.valid hu.leads)
  have hread := hu.valid.readToken
  rw [← hchars, ht.valid.readToken] at hread
  exact Option.some.inj hread

theorem readToken_isSome {text : List Char} {t : CToken} (h : Longest t text) :
    (readToken text).isSome := by
  obtain ⟨c, run, hchars⟩ := h.valid.exists_cons
  obtain ⟨more, hmore⟩ := h.leads
  obtain ⟨rest, rfl⟩ : ∃ rest, text = c :: rest := ⟨run ++ more, by rw [← hmore, hchars]; rfl⟩
  rcases h.valid.leads h.leads with ⟨_, _, hname, _⟩ | ⟨_, _, hnumber, _⟩ | ⟨p, hp, rfl, _⟩
  · simp [readToken, hname]
  · simp [readToken_of_startsNumber hnumber]
  · have hfound : (punctuators.find? (·.isPrefixOf (c :: rest))).isSome :=
      List.find?_isSome.2 ⟨p, hp, List.isPrefixOf_iff_prefix.2 h.leads⟩
    simp only [readToken]
    split
    · rfl
    split
    · rfl
    · simpa using hfound

theorem readToken_iff_longest {text : List Char} {t : CToken} :
    readToken text = some t ↔ Longest t text := by
  refine ⟨longest_of_readToken, fun h => ?_⟩
  obtain ⟨u, hu⟩ := Option.isSome_iff_exists.1 (readToken_isSome h)
  rw [hu, (longest_of_readToken hu).unique h]

theorem CToken.Valid.head_ne_space {t : CToken} (h : t.Valid) :
    ∀ c ∈ t.chars.head?, isSpace c = false := by
  intro c hc
  cases h with
  | name hname =>
    cases hc
    exact space_of_nameStart hname
  | number h =>
    obtain ⟨d, run, _, rfl, _, hstart, _⟩ := h.numberRun_append
    cases hc
    exact hstart.head.2
  | punctuator h => exact (punctuator_head _ h c hc).2.2.1

theorem splits_of_tokens {text : List Char} {ts : List CToken} (h : tokens text = some ts) :
    Splits text ts := by
  fun_induction tokens text generalizing ts with
  | case1 =>
    cases h
    exact .nil
  | case2 c rest hspace ih => exact .space hspace (ih h)
  | case3 => cases h
  | case4 c rest hspace t hread ih =>
    obtain ⟨us, hus, rfl⟩ := Option.map_eq_some_iff.1 h
    have hlongest := readToken_iff_longest.1 hread
    obtain ⟨more, hmore⟩ := hlongest.leads
    have hrest := ih hus
    rw [← hmore, List.drop_left] at hrest
    rw [← hmore] at hlongest ⊢
    exact .token hlongest hrest

theorem tokens_iff_splits {text : List Char} {ts : List CToken} :
    tokens text = some ts ↔ Splits text ts := by
  refine ⟨splits_of_tokens, fun h => ?_⟩
  induction h with
  | nil => exact tokens_nil
  | space hc _ ih => rw [tokens, if_pos hc, ih]
  | token ht _ ih =>
    rw [tokens_of_readToken (readToken_iff_longest.2 ht) rfl ht.valid.head_ne_space, ih]
    rfl

/-! ## Expressions -/

inductive IsUnary : List CToken → Expr → Prop
  | name (text : List Char) : IsUnary [.name text] (.named text)
  | number (text : List Char) : IsUnary [.number text] (.constant text)
  | signed {sign : Operator} {ts : List CToken} {e : Expr} (hsign : sign.isSum)
      (h : IsUnary ts e) : IsUnary (.punctuator sign.spelling.toList :: ts) (.signed sign e)

/-- Operands with operators of one level between them, grouped from the left. -/
inductive LeftGrouped (level : Operator → Bool) (operand : List CToken → Expr → Prop) :
    List CToken → Expr → Prop
  | single {ts : List CToken} {e : Expr} (h : operand ts e) : LeftGrouped level operand ts e
  | step {ts us : List CToken} {op : Operator} {left right : Expr}
      (hleft : LeftGrouped level operand ts left) (hop : level op) (hright : operand us right) :
      LeftGrouped level operand (ts ++ .punctuator op.spelling.toList :: us)
        (.binary op left right)

def IsProduct : List CToken → Expr → Prop :=
  LeftGrouped Operator.isProduct IsUnary

def IsSum : List CToken → Expr → Prop :=
  LeftGrouped Operator.isSum IsProduct

def IsRelation : List CToken → Expr → Prop :=
  LeftGrouped Operator.isRelation IsSum

def IsEquality : List CToken → Expr → Prop :=
  LeftGrouped Operator.isEquality IsRelation

/-- C splits a text into tokens and reads these as an expression. -/
def ReadsAs (text : String) (e : Expr) : Prop :=
  ∃ ts, Splits text.toList ts ∧ IsEquality ts e

/-! ### Rows of operands -/

inductive Spelt (operand : List CToken → Expr → Prop) : List CToken → Row Expr → Prop
  | single {ts : List CToken} {e : Expr} (h : operand ts e) : Spelt operand ts ⟨e, []⟩
  | link {ts us : List CToken} {e : Expr} {op : Operator} {r : Row Expr} (h : operand ts e)
      (hop : op ≠ .assign) (hrest : Spelt operand us r) :
      Spelt operand (ts ++ .punctuator op.spelling.toList :: us) ⟨e, (op, r.head) :: r.tail⟩

variable {operand : List CToken → Expr → Prop}

theorem Spelt.append {ts us : List CToken} {r s : Row Expr} {op : Operator}
    (hr : Spelt operand ts r) (hop : op ≠ .assign) (hs : Spelt operand us s) :
    Spelt operand (ts ++ .punctuator op.spelling.toList :: us)
      ⟨r.head, r.tail ++ (op, s.head) :: s.tail⟩ := by
  induction hr with
  | single h => exact .link h hop hs
  | link h hop' _ ih =>
    rw [List.append_assoc]
    exact .link h hop' ih

theorem binaryOperator_iff {text : List Char} {op : Operator} :
    binaryOperator? text = some op ↔ text = op.spelling.toList ∧ op ≠ .assign := by
  constructor
  · intro h
    obtain ⟨before, after, hsplit, _⟩ := List.lookup_eq_some_iff.1 h
    have hall : ∀ x ∈ [(['+'], Operator.plus), (['-'], .minus), (['*'], .asterisk),
        (['/'], .slash), (['=', '='], .equal), (['!', '='], .notEqual), (['<'], .less),
        (['<', '='], .lessEqual), (['>'], .greater), (['>', '='], .greaterEqual)],
        x.1 = x.2.spelling.toList ∧ x.2 ≠ .assign := by decide
    exact hall (text, op) (hsplit ▸ by simp)
  · rintro ⟨rfl, hop⟩
    cases op with
    | assign => exact absurd rfl hop
    | _ => rfl

/-- A unary expression is read as one operand. -/
theorem IsUnary.readOperand {ts : List CToken} {e : Expr} (h : IsUnary ts e)
    (signs : List Operator) (rest : List CToken) :
    readOperand signs (ts ++ rest) =
      (readTail rest).map fun tail => ⟨.withSigns signs e, tail⟩ := by
  induction h generalizing signs with
  | name text | number text => rw [List.singleton_append, C.readOperand]
  | @signed sign ts e hsign _ ih =>
    have hstep : C.readOperand signs (.punctuator sign.spelling.toList :: (ts ++ rest)) =
        C.readOperand (sign :: signs) (ts ++ rest) := by
      cases sign with
      | plus | minus => rw [C.readOperand]; rfl
      | _ => cases hsign
    rw [List.cons_append, hstep, ih]
    rfl

theorem readOperand_of_spelt {ts : List CToken} {r : Row Expr} (h : Spelt IsUnary ts r) :
    readOperand [] ts = some r := by
  induction h with
  | @single ts e h =>
    have hread := h.readOperand [] []
    rwa [List.append_nil] at hread
  | @link ts us e op r h hop _ ih =>
    rw [h.readOperand, readTail, binaryOperator_iff.2 ⟨rfl, hop⟩, Option.bind_some, ih]
    rfl

theorem Spelt.signed {sign : Operator} (hsign : sign.isSum) {ts : List CToken} {r : Row Expr}
    (h : Spelt IsUnary ts r) :
    Spelt IsUnary (.punctuator sign.spelling.toList :: ts) ⟨.signed sign r.head, r.tail⟩ := by
  cases h with
  | single h => exact .single (.signed hsign h)
  | link h hop hrest => exact .link (.signed hsign h) hop hrest

def TailSpelt (ts : List CToken) (tail : List (Operator × Expr)) : Prop :=
  ts = [] ∧ tail = [] ∨ ∃ op us r, op ≠ .assign ∧
    ts = .punctuator op.spelling.toList :: us ∧ Spelt IsUnary us r ∧ tail = (op, r.head) :: r.tail

theorem TailSpelt.cons {t : CToken} {e : Expr} (he : IsUnary [t] e) {ts : List CToken}
    {tail : List (Operator × Expr)} (h : TailSpelt ts tail) :
    Spelt IsUnary (t :: ts) ⟨e, tail⟩ := by
  rcases h with ⟨rfl, rfl⟩ | ⟨op, us, r, hop, rfl, hr, rfl⟩
  · exact .single he
  · exact .link he hop hr

theorem spelt_of_read (ts : List CToken) :
    (∀ signs r, readOperand signs ts = some r →
      ∃ s, Spelt IsUnary ts s ∧ r = ⟨.withSigns signs s.head, s.tail⟩) ∧
    ∀ tail, readTail ts = some tail → TailSpelt ts tail := by
  induction ts with
  | nil =>
    refine ⟨fun signs r h => ?_, fun tail h => ?_⟩
    · cases h
    · cases h
      exact .inl ⟨rfl, rfl⟩
  | cons t ts ih =>
    obtain ⟨hoperand, htail⟩ := ih
    refine ⟨fun signs r h => ?_, fun tail h => ?_⟩
    · cases t with
      | name text | number text =>
        rw [readOperand] at h
        obtain ⟨tail, hread, rfl⟩ := Option.map_eq_some_iff.1 h
        exact ⟨⟨_, tail⟩, (htail tail hread).cons (by constructor), rfl⟩
      | punctuator text =>
        rw [readOperand] at h
        have hsigned : ∀ sign : Operator, sign.isSum → readOperand (sign :: signs) ts = some r →
            ∃ s, Spelt IsUnary (.punctuator sign.spelling.toList :: ts) s ∧
              r = ⟨.withSigns signs s.head, s.tail⟩ := by
          intro sign hsign hread
          obtain ⟨s, hs, rfl⟩ := hoperand _ r hread
          exact ⟨_, hs.signed hsign, rfl⟩
        split at h
        · next hplus => exact hplus ▸ hsigned .plus rfl h
        split at h
        · next hminus => exact hminus ▸ hsigned .minus rfl h
        · cases h
    · cases t with
      | name text | number text => cases h
      | punctuator text =>
        rw [readTail] at h
        obtain ⟨op, hop, h⟩ := Option.bind_eq_some_iff.1 h
        obtain ⟨r, hread, rfl⟩ := Option.map_eq_some_iff.1 h
        obtain ⟨s, hs, rfl⟩ := hoperand [] r hread
        obtain ⟨rfl, hassign⟩ := binaryOperator_iff.1 hop
        exact .inr ⟨op, ts, s, hassign, rfl, hs, rfl⟩

theorem readOperand_iff_spelt {ts : List CToken} {r : Row Expr} :
    readOperand [] ts = some r ↔ Spelt IsUnary ts r := by
  refine ⟨fun h => ?_, readOperand_of_spelt⟩
  obtain ⟨s, hs, rfl⟩ := (spelt_of_read ts).1 [] r h
  exact hs

/-! ### Levels -/

theorem Spelt.group {level : Operator → Bool} {us : List CToken} {r : Row Expr}
    (h : Spelt operand us r) (before : List CToken) (f : Expr → Expr)
    (hf : ∀ ts e, operand ts e → LeftGrouped level operand (before ++ ts) (f e)) :
    Spelt (LeftGrouped level operand) (before ++ us)
      (Row.groupFrom level .binary (f r.head) r.tail) := by
  induction h generalizing before f with
  | single h => exact .single (hf _ _ h)
  | @link ts us e op r h hop _ ih =>
    by_cases hlevel : level op
    · rw [Row.groupFrom, if_pos hlevel]
      have hstep := ih (before ++ ts ++ [.punctuator op.spelling.toList]) (.binary op (f e))
        fun vs e' h' => by simpa using (hf ts e h).step hlevel h'
      simpa using hstep
    · rw [Row.groupFrom, if_neg hlevel, ← List.append_assoc]
      exact .link (hf ts e h) hop (ih [] id fun _ _ => .single)

theorem LeftGrouped.spelt {level : Operator → Bool} (hlevel : level .assign = false)
    {ts : List CToken} {e : Expr} (h : LeftGrouped level operand ts e) :
    ∃ r, Spelt operand ts r ∧ (∀ x ∈ r.tail, level x.1) ∧ r.fold .binary = e := by
  induction h with
  | @single ts e h => exact ⟨⟨e, []⟩, .single h, by simp, rfl⟩
  | @step ts us op left right _ hop hright ih =>
    obtain ⟨r, hspelt, hall, rfl⟩ := ih
    have hassign : op ≠ .assign := by
      rintro rfl
      rw [hlevel] at hop
      cases hop
    refine ⟨⟨r.head, r.tail ++ [(op, right)]⟩, hspelt.append hassign (.single hright), ?_, ?_⟩
    · exact List.forall_mem_append.2 ⟨hall, by simpa using hop⟩
    · simp [Row.fold]

/-- A row of groups, with looser operators between them, comes from the row of all operands. -/
theorem Spelt.ungroup {level : Operator → Bool} (looser : Operator → Bool)
    (hlevel : level .assign = false) (hlooser : ∀ op, looser op → level op = false) {ts : List CToken} {s : Row Expr}
    (h : Spelt (LeftGrouped level operand) ts s) (hs : ∀ x ∈ s.tail, looser x.1) :
    ∃ r, Spelt operand ts r ∧ r.group level .binary = s ∧
      ∀ x ∈ r.tail, level x.1 || looser x.1 := by
  induction h with
  | single h =>
    obtain ⟨r, hspelt, hall, rfl⟩ := h.spelt hlevel
    exact ⟨r, hspelt, Row.group_of_all hall, fun x hx => by simp [hall x hx]⟩
  | @link ts us e op s h hop _ ih =>
    obtain ⟨hlink, hs⟩ := List.forall_mem_cons.1 hs
    have hlink : looser op := hlink
    obtain ⟨r, hr, hgroup, hops⟩ := ih hs
    obtain ⟨q, hq, hall, rfl⟩ := h.spelt hlevel
    refine ⟨_, hq.append hop hr, ?_, List.forall_mem_append.2 ⟨fun x hx => ?_, ?_⟩⟩
    · rw [Row.group, Row.groupFrom_run hall, Row.groupFrom, hlooser op hlink, ← hgroup]
      rfl
    · simp [hall x hx]
    · exact List.forall_mem_cons.2 ⟨by simp [hlink], hops⟩

theorem Spelt.of_single {ts : List CToken} {e : Expr} (h : Spelt operand ts ⟨e, []⟩) :
    operand ts e := by
  cases h with
  | single h => exact h

theorem isEquality_of_grouped {ts : List CToken} {r : Row Expr} {e : Expr}
    (h : Spelt IsUnary ts r) (hgrouped : grouped .binary r = ⟨e, []⟩) : IsEquality ts e := by
  have hproduct : Spelt IsProduct ts (r.group Operator.isProduct .binary) :=
    h.group [] id fun _ _ => .single
  have hsum : Spelt IsSum ts (Row.group Operator.isSum .binary _) :=
    hproduct.group [] id fun _ _ => .single
  have hrelation : Spelt IsRelation ts (Row.group Operator.isRelation .binary _) :=
    hsum.group [] id fun _ _ => .single
  have hequality : Spelt IsEquality ts (Row.group Operator.isEquality .binary _) :=
    hrelation.group [] id fun _ _ => .single
  rw [grouped] at hgrouped
  rw [hgrouped] at hequality
  exact hequality.of_single

theorem grouped_of_isEquality {ts : List CToken} {e : Expr} (h : IsEquality ts e) :
    ∃ r, Spelt IsUnary ts r ∧ grouped .binary r = ⟨e, []⟩ := by
  obtain ⟨relations, hrelations, hequality, hequal⟩ := h.spelt rfl
  obtain ⟨sums, hsums, rfl, hrelation⟩ := hrelations.ungroup (fun op => op.isEquality) rfl
    (by intro op; cases op <;> decide) hequality
  obtain ⟨products, hproducts, rfl, hsum⟩ := hsums.ungroup
    (fun op => op.isRelation || op.isEquality) rfl (by intro op; cases op <;> decide) hrelation
  obtain ⟨operands, hoperands, rfl, _⟩ := hproducts.ungroup
    (fun op => op.isSum || (op.isRelation || op.isEquality)) rfl
    (by intro op; cases op <;> decide) hsum
  refine ⟨operands, hoperands, ?_⟩
  rw [grouped, Row.group_of_all hequality, hequal]

/-- The reader finds the expressions that C reads and no others. -/
theorem read_iff_readsAs {text : String} {e : Expr} : read text = some e ↔ ReadsAs text e := by
  constructor
  · intro h
    obtain ⟨ts, hts, h⟩ := Option.bind_eq_some_iff.1 h
    obtain ⟨r, hr, h⟩ := Option.bind_eq_some_iff.1 h
    split at h
    · next e' hgrouped =>
      cases h
      exact ⟨ts, tokens_iff_splits.1 hts,
        isEquality_of_grouped (readOperand_iff_spelt.1 hr) hgrouped⟩
    · cases h
  · rintro ⟨ts, hts, he⟩
    obtain ⟨r, hr, hgrouped⟩ := grouped_of_isEquality he
    simp [read, tokens_iff_splits.2 hts, readOperand_iff_spelt.2 hr, hgrouped]

end TeenyLang.C
