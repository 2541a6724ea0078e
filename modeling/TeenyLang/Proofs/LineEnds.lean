import TeenyLang.Compilation
import TeenyLang.Proofs.LikeRuns
import TeenyLang.Proofs.LineSeam
import TeenyLang.Proofs.ShownLine

set_option autoImplicit false

/-!
# Line ends

A text that is read from a file has its line ends made newlines. The scanner takes a carriage return
for a blank, so for a text in which each of them stands before a newline nothing is changed but the
places in the lines (`compile_unifyNewlines`). A carriage return that stands alone becomes a newline
that was not there before, and what was the rest of a comment may become a statement.
-/
namespace TeenyLang

inductive ErrorClass where
  | other (stage : Option Stage)
  | illegalCharacter | unexpectedCharacter
  | unexpectedToken | missingComparison | invalidStatement
  | undeclaredVariable | duplicateLabel | undeclaredLabels
deriving DecidableEq, Repr

def Cause.errorClass : Cause → ErrorClass
  | .other stage _ _ => .other stage
  | .illegalCharacter .. => .illegalCharacter
  | .unexpectedCharacter .. => .unexpectedCharacter
  | .unexpectedToken .. => .unexpectedToken
  | .missingComparison _ => .missingComparison
  | .invalidStatement _ => .invalidStatement
  | .undeclaredVariable .. => .undeclaredVariable
  | .duplicateLabel .. => .duplicateLabel
  | .undeclaredLabels .. => .undeclaredLabels

/-! ## Carriage returns -/

namespace Text

def loneReturns : List Char → Nat
  | [] => 0
  | '\r' :: '\n' :: rest => loneReturns rest
  | c :: rest => (if c = '\r' then 1 else 0) + loneReturns rest

def dropReturns (text : List Char) : List Char :=
  text.filter (· ≠ '\r')

theorem loneReturns_cons {c : Char} {rest : List Char}
    (h : c = '\r' → rest.head? ≠ some '\n') :
    loneReturns (c :: rest) = (if c = '\r' then 1 else 0) + loneReturns rest := by
  rw [loneReturns]
  rintro rest' rfl rfl
  exact absurd rfl (h rfl)

theorem loneReturns_tail {c : Char} {rest : List Char} (h : loneReturns (c :: rest) = 0) :
    loneReturns rest = 0 := by
  by_cases hpair : c = '\r' ∧ rest.head? = some '\n'
  · obtain ⟨rfl, hhead⟩ := hpair
    obtain ⟨rest, rfl⟩ : ∃ rest', rest = '\n' :: rest' := by
      cases rest with
      | nil => cases hhead
      | cons d rest => exact ⟨rest, by rw [Option.some.inj hhead]⟩
    change loneReturns rest = 0 at h
    rw [loneReturns_cons fun hc => absurd hc (by decide), h]
    rfl
  · rw [loneReturns_cons fun hc hhead => hpair ⟨hc, hhead⟩] at h
    omega

theorem loneReturns_suffix {x y : List Char} (h : loneReturns (x ++ y) = 0) :
    loneReturns y = 0 := by
  induction x with
  | nil => exact h
  | cons c x ih => exact ih (loneReturns_tail h)

theorem loneReturns_concat {x : List Char} (h : loneReturns x = 0) :
    loneReturns (x ++ ['\n']) = 0 := by
  fun_induction loneReturns x with
  | case1 => rfl
  | case2 rest ih => exact ih h
  | case3 c rest _ ih =>
    obtain ⟨hreturn, hrest⟩ := Nat.add_eq_zero_iff.1 h
    have hc : c ≠ '\r' := fun hc => by simp [hc] at hreturn
    rw [List.cons_append, loneReturns_cons fun hc' => absurd hc' hc, hreturn, ih hrest]

/-- A carriage return that is not alone has a newline after it. -/
theorem head_of_return {rest : List Char} (h : loneReturns ('\r' :: rest) = 0) :
    rest.head? = some '\n' := by
  by_contra hhead
  rw [loneReturns_cons fun _ => hhead] at h
  simp at h

/-- Where no carriage return is alone, all of them go. -/
theorem unifyNewlines_eq {text : List Char} (h : loneReturns text = 0) :
    unifyNewlines text = dropReturns text := by
  fun_induction unifyNewlines text with
  | case1 => rfl
  | case2 rest ih => exact congrArg ('\n' :: ·) (ih h)
  | case3 c rest hpair ih =>
    have hc : c ≠ '\r' := by
      rintro rfl
      cases rest with
      | nil => cases head_of_return h
      | cons d rest =>
        cases head_of_return h
        exact hpair rest rfl rfl
    rw [if_neg hc, ih (loneReturns_tail h), dropReturns, dropReturns, List.filter_cons_of_pos]
    simpa using hc

end Text

/-- A run of characters that the carriage returns belong to does not hang on them. -/
theorem takeWhile_dropReturns {p : Char → Bool} (hp : p '\r' = true) (x : List Char) :
    (Text.dropReturns x).takeWhile p = Text.dropReturns (x.takeWhile p) := by
  induction x with
  | nil => rfl
  | cons c x ih =>
    by_cases hc : c = '\r'
    · simpa [Text.dropReturns, hc, hp] using ih
    · by_cases hpc : p c <;> simp_all [Text.dropReturns]

theorem dropWhile_dropReturns {p : Char → Bool} (hp : p '\r' = true) (x : List Char) :
    (Text.dropReturns x).dropWhile p = Text.dropReturns (x.dropWhile p) := by
  induction x with
  | nil => rfl
  | cons c x ih =>
    by_cases hc : c = '\r'
    · simpa [Text.dropReturns, hc, hp] using ih
    · by_cases hpc : p c <;> simp_all [Text.dropReturns]

theorem dropReturns_append (x y : List Char) :
    Text.dropReturns (x ++ y) = Text.dropReturns x ++ Text.dropReturns y :=
  List.filter_append ..

theorem dropReturns_of_notMem {x : List Char} (h : '\r' ∉ x) : Text.dropReturns x = x :=
  List.filter_eq_self.2 fun c hc => by
    simp only [ne_eq, decide_not, Bool.not_eq_eq_eq_not, Bool.not_true, decide_eq_false_iff_not]
    rintro rfl
    exact h hc

namespace Lexeme

theorem gap_dropReturns (x : List Char) : gap (Text.dropReturns x) = Text.dropReturns (gap x) := by
  have hblank : isBlank '\r' = true := by decide
  rw [gap, gap, takeWhile_dropReturns hblank, dropWhile_dropReturns hblank, dropReturns_append]
  have hhead := Lexical.head_dropWhile (p := isBlank) x
  generalize x.dropWhile isBlank = y at hhead
  congr 1
  cases y with
  | nil => rfl
  | cons c y =>
    have hc : c ≠ '\r' := by
      rintro rfl
      exact absurd (hhead _ rfl) (by decide)
    have hcons : Text.dropReturns (c :: y) = c :: Text.dropReturns y :=
      List.filter_cons_of_pos (by simpa using hc)
    by_cases hcomment : c = '#'
    · subst hcomment
      have hrun := takeWhile_dropReturns (p := (· ≠ '\n')) (by decide) ('#' :: y)
      rw [hcons] at hrun ⊢
      exact hrun
    · rw [hcons, Lexical.comment_of_ne (by simp [hcomment]),
        Lexical.comment_of_ne (by simp [hcomment])]
      rfl

/-- After a gap there is no carriage return. -/
theorem head_after_gap (x : List Char) : ∀ c ∈ (x.drop (gap x).length).head?, c ≠ '\r' := by
  rw [gap, List.length_append, ← List.drop_drop, Lexical.drop_takeWhile]
  have hhead := Lexical.head_dropWhile (p := isBlank) x
  generalize x.dropWhile isBlank = y at hhead
  by_cases hcomment : y.head? = some '#'
  · obtain ⟨y, rfl⟩ : ∃ rest, y = '#' :: rest := by
      cases y with
      | nil => cases hcomment
      | cons c y => exact ⟨y, by rw [Option.some.inj hcomment]⟩
    change ∀ c ∈ (('#' :: y).drop (('#' :: y).takeWhile (· ≠ '\n')).length).head?, c ≠ '\r'
    rw [Lexical.drop_takeWhile]
    rintro c hc rfl
    exact absurd (Lexical.head_dropWhile _ _ hc) (by decide)
  · rw [Lexical.comment_of_ne fun c hc hsharp => hcomment (hsharp ▸ hc)]
    rintro c hc rfl
    exact absurd (hhead _ hc) (by decide)

/-! ## One lexeme -/

/-- The same lexeme, or faults at the same place and of the same class. -/
inductive Similar : Lexeme → Lexeme → Prop
  | refl (lexeme : Lexeme) : Similar lexeme lexeme
  | fault (before : Nat) {cause cause' : Cause} (h : cause.errorClass = cause'.errorClass) :
      Similar (.fault before cause) (.fault before cause')

theorem readString_return (x y : List Char) :
    Similar (readString (x ++ '\r' :: y)) (readString (x ++ ['\n'])) := by
  have hreturn : isStringChar '\r' = false := by decide
  have hnewline : isStringChar '\n' = false := by decide
  simp only [readString, takeWhile_stop hreturn, takeWhile_stop hnewline, dropWhile_stop hreturn,
    dropWhile_stop hnewline]
  cases x.dropWhile isStringChar with
  | nil => exact .fault _ rfl
  | cons c rest => by_cases hc : c = '"' <;> simp only [hc, List.cons_append] <;> exact .refl _

theorem readNumber_return (x y : List Char) :
    readNumber (x ++ '\r' :: y) = readNumber (x ++ ['\n']) := by
  have hreturn : Char.isDigit '\r' = false := by decide
  have hnewline : Char.isDigit '\n' = false := by decide
  simp only [readNumber, takeWhile_stop hreturn, takeWhile_stop hnewline, dropWhile_stop hreturn,
    dropWhile_stop hnewline]
  cases x.dropWhile Char.isDigit with
  | nil => rfl
  | cons c rest =>
    by_cases hc : c = '.'
    · simp [hc, takeWhile_stop hreturn, takeWhile_stop hnewline]
    · simp [hc]

theorem readWord_return (x y : List Char) :
    readWord (x ++ '\r' :: y) = readWord (x ++ ['\n']) := by
  have hreturn : Char.isAlphanum '\r' = false := by decide
  have hnewline : Char.isAlphanum '\n' = false := by decide
  rw [readWord, readWord, takeWhile_stop hreturn, takeWhile_stop hnewline]

theorem readOperator_return (c : Char) (x y : List Char) :
    readOperator c (x ++ '\r' :: y) = readOperator c (x ++ ['\n']) := by
  have hhead : ((x ++ '\r' :: y).head? = some '=') = ((x ++ ['\n']).head? = some '=') := by
    cases x <;> simp
  unfold readOperator
  simp only [hhead]

end Lexeme

/-- A carriage return ends a lexeme as a newline does. -/
theorem readLexeme_return {c : Char} (x y : List Char) :
    (readLexeme (c :: x ++ '\r' :: y)).Similar (readLexeme (c :: x ++ ['\n'])) := by
  have hnumber := Lexeme.readNumber_return (c :: x) y
  have hword := Lexeme.readWord_return (c :: x) y
  simp only [List.cons_append] at hnumber hword
  simp only [List.cons_append, readLexeme, hnumber, hword, Lexeme.readOperator_return]
  split
  · exact .refl _
  split
  · exact Lexeme.readString_return x y
  · exact .refl _

/-! ## One token -/

/-- A text goes up to its first newline, which may have a carriage return before it. -/
theorem Text.first_newline {y : List Char} (hmem : '\n' ∈ y) (hlone : loneReturns y = 0) :
    ∃ u w, '\r' ∉ u ∧ (y = u ++ '\n' :: w ∨ y = u ++ '\r' :: '\n' :: w) := by
  induction y with
  | nil => cases hmem
  | cons c y ih =>
    by_cases hnewline : c = '\n'
    · exact ⟨[], y, by simp, .inl (by rw [hnewline]; rfl)⟩
    by_cases hreturn : c = '\r'
    · subst hreturn
      have hhead := head_of_return hlone
      cases y with
      | nil => cases hhead
      | cons d w => exact ⟨[], w, by simp, .inr (by rw [Option.some.inj hhead]; rfl)⟩
    · have hmem : '\n' ∈ y := (List.mem_cons.1 hmem).resolve_left (Ne.symm hnewline)
      obtain ⟨u, w, hu, hy⟩ := ih hmem (loneReturns_tail hlone)
      refine ⟨c :: u, w, by simp [hu, Ne.symm hreturn], ?_⟩
      exact hy.imp (congrArg (c :: ·)) (congrArg (c :: ·))

/-- After a gap the same lexeme is read with and without the carriage returns. -/
theorem readLexeme_dropReturns {y : List Char} (hclosed : Lexical.Closed y)
    (hlone : Text.loneReturns y = 0) (hhead : ∀ c ∈ y.head?, c ≠ '\r') :
    (readLexeme y).Similar (readLexeme (Text.dropReturns y)) := by
  rcases hclosed with rfl | hlast
  · exact .refl _
  obtain ⟨u, w, hu, rfl | rfl⟩ := Text.first_newline (List.mem_of_getLast? hlast) hlone
  · have hdrop : Text.dropReturns (u ++ '\n' :: w) = u ++ '\n' :: Text.dropReturns w := by
      rw [dropReturns_append, dropReturns_of_notMem hu]
      rfl
    rw [hdrop, readLexeme_newline u w, readLexeme_newline u (Text.dropReturns w)]
    exact .refl _
  · have hdrop : Text.dropReturns (u ++ '\r' :: '\n' :: w) = u ++ '\n' :: Text.dropReturns w := by
      rw [dropReturns_append, dropReturns_of_notMem hu]
      rfl
    rw [hdrop, readLexeme_newline]
    cases u with
    | nil => exact absurd rfl (hhead '\r' rfl)
    | cons c u => exact readLexeme_return u ('\n' :: w)

/-- What is left of a text after a lexeme, with and without the carriage returns. -/
theorem drop_dropReturns {y : List Char} {kind : Kind} {text : String} {length : Nat}
    (h : readLexeme y = .found kind text length) :
    (Text.dropReturns y).drop length = Text.dropReturns (y.drop length) := by
  by_cases hne : y = []
  · subst hne
    simp [Text.dropReturns]
  obtain ⟨lexeme, rest, rfl, rfl, hstands⟩ := Lexical.stands_of_readLexeme h hne
  have hclean : '\r' ∉ lexeme := by
    rcases hstands.spells.chars with ⟨-, rfl⟩ | ⟨-, hchars⟩
    · decide
    · exact fun hmem => (hchars _ hmem).2 rfl
  rw [dropReturns_append, dropReturns_of_notMem hclean, List.drop_left, List.drop_left]

/-- A text whose line ends are newlines, or have a carriage return before the newline. -/
structure LinesEnd (text : List Char) : Prop where
  closed : Lexical.Closed text
  paired : Text.loneReturns text = 0

theorem LinesEnd.drop {text : List Char} (h : LinesEnd text) (n : Nat) : LinesEnd (text.drop n) :=
  have hsplit := (List.take_append_drop n text).symm
  ⟨(hsplit ▸ h.closed).suffix, Text.loneReturns_suffix (x := text.take n) (hsplit ▸ h.paired)⟩

/-- Two scanners, the second without the carriage returns: both read a token of the same kind and
text, or both fail for a cause of the same class. -/
theorem next_dropReturns {s s' : Scanner} (h : LinesEnd s.cursor.rest)
    (hrest : s'.cursor.rest = Text.dropReturns s.cursor.rest) :
    (∃ t u r r', Scanner.next s = .ok t r ∧ Scanner.next s' = .ok u r' ∧ t.kind = u.kind ∧
      t.text = u.text ∧ LinesEnd r.cursor.rest ∧
        r'.cursor.rest = Text.dropReturns r.cursor.rest) ∨
    ∃ d d' r r', Scanner.next s = .error d r ∧ Scanner.next s' = .error d' r' ∧
      d.cause.errorClass = d'.cause.errorClass := by
  have hafter : s'.cursor.rest.drop (Lexeme.gap s'.cursor.rest).length =
      Text.dropReturns (s.cursor.rest.drop (Lexeme.gap s.cursor.rest).length) := by
    obtain ⟨y, hy⟩ := Lexeme.gap_prefix s.cursor.rest
    have hy' := congrArg Text.dropReturns hy
    rw [dropReturns_append] at hy'
    rw [hrest, Lexeme.gap_dropReturns]
    calc
      _ = Text.dropReturns y := (congrArg (List.drop _) hy'.symm).trans List.drop_left
      _ = _ := congrArg _ ((congrArg (List.drop _) hy.symm).trans List.drop_left).symm
  have hlines := h.drop (Lexeme.gap s.cursor.rest).length
  have hlexeme := readLexeme_dropReturns hlines.closed hlines.paired
    (Lexeme.head_after_gap s.cursor.rest)
  simp only [Scanner.next, Cursor.advanceBy_rest, hafter]
  generalize hread : readLexeme (s.cursor.rest.drop (Lexeme.gap s.cursor.rest).length) = lexeme
    at hlexeme
  generalize readLexeme (Text.dropReturns _) = lexeme' at hlexeme
  cases hlexeme with
  | fault before hclass => exact .inr ⟨_, _, _, _, rfl, rfl, hclass⟩
  | refl =>
    cases lexeme with
    | fault before cause => exact .inr ⟨_, _, _, _, rfl, rfl, rfl⟩
    | found kind text length =>
      refine .inl ⟨_, _, _, _, rfl, rfl, rfl, rfl, ?_, ?_⟩
      · simp only [Cursor.advanceBy_rest]
        exact hlines.drop length
      · simp only [Cursor.advanceBy_rest, hafter]
        exact drop_dropReturns hread

/-! ## A whole run -/

def unreturned : Parser.Pairing Scanner Scanner where
  tied l m := l.current.Like (fun _ _ => True) m.current ∧ l.peek.Like (fun _ _ => True) m.peek ∧
    LinesEnd l.supply.cursor.rest ∧
      m.supply.cursor.rest = Text.dropReturns l.supply.cursor.rest
  place _ _ := True
  shown _ _ := True
  fault d d' := d.cause.errorClass = d'.cause.errorClass
  counted := True
  shorter := False

theorem unreturned_pulls {l m : Lookahead Scanner} (h : unreturned.tied l m) :
    unreturned.Pulls l m := by
  obtain ⟨-, hpeek, hlines, hrest⟩ := h
  rcases next_dropReturns hlines hrest with
    ⟨t, u, r, r', hnext, hnext', hkind, htext, hlines', hrest'⟩ | ⟨d, d', r, r', hnext, hnext', h⟩
  · refine .ok hnext hnext' (fun _ => by rw [hkind]) ?_
    exact ⟨hpeek, ⟨hkind, htext, trivial⟩, hlines', hrest'⟩
  · exact .error hnext hnext' h

theorem unreturned_lawful : unreturned.Lawful where
  shown_none := trivial
  current h := h.1
  pull h _ := unreturned_pulls h
  skip := Parser.Pairing.pairs_skipNewlines (fun h => h.1) fun h _ => .inl (unreturned_pulls h)

theorem Cause.Like.errorClass_eq {place : Location → Location → Prop} {cause cause' : Cause}
    (h : cause.Like place cause') : cause.errorClass = cause'.errorClass := by
  cases h <;> rfl

theorem told_unreturned {d d' : Diagnostic} (h : unreturned.Told d d') :
    d.cause.errorClass = d'.cause.errorClass := by
  cases h with
  | fault h => exact h
  | refusal hcause _ _ => exact hcause.errorClass_eq

/-- Two compilations that say the same, but for the places and the shown lines in them. -/
structure Compilation.Agrees (a b : Compilation) : Prop where
  isAccepted : a.isAccepted = b.isAccepted
  output : a.output = b.output
  tokenCount : a.tokenCount = b.tokenCount
  variableNames : a.variableNames = b.variableNames
  labels : a.labels = b.labels
  errorClass : (a.diagnostic?.map fun d => d.cause.errorClass) =
    b.diagnostic?.map fun d => d.cause.errorClass

theorem agrees_of_noted {file file' : String} {verdict verdict' : Verdict} {p q : Parser Scanner}
    (h : unreturned.Noted p q)
    (hverdict : Compilation.Agrees { verdict := verdict } { verdict := verdict' }) :
    (Compilation.ofParser file verdict p).Agrees (.ofParser file' verdict' q) where
  isAccepted := hverdict.isAccepted
  output := hverdict.output
  tokenCount := h.count trivial
  variableNames := congrArg (List.mergeSort · _) h.variableNames
  labels := by
    have hnames := List.forall₂_map_left_iff.2 (List.forall₂_map_right_iff.2
      (h.labels.imp fun _ _ h => h.1))
    rwa [List.forall₂_eq_eq_eq] at hnames
  errorClass := hverdict.errorClass

/-- The two parsers before their first tokens. -/
theorem unreturned_fresh {source : String} (h : Text.loneReturns source.toList = 0) (file : String)
    (precision : Int) (lines lines' : List String) :
    unreturned.Alike (Parser.fresh precision lines (Scanner.start source file))
      (Parser.fresh precision lines'
        (Scanner.start (String.ofList (Text.unifyNewlines source.toList)) file)) where
  precision := rfl
  variableNames := rfl
  labels := .nil
  jumps := .nil
  listing := rfl
  lines _ _ _ := trivial
  count _ := rfl
  tied := by
    refine ⟨⟨rfl, rfl, trivial⟩, ⟨rfl, rfl, trivial⟩, ?_, ?_⟩
    · exact ⟨Lexical.closed_source source file, Text.loneReturns_concat h⟩
    · change (String.ofList _).toList ++ ['\n'] = Text.dropReturns (source.toList ++ ['\n'])
      rw [String.toList_ofList, Text.unifyNewlines_eq h, dropReturns_append]
      rfl

/-- Where every carriage return stands before a newline, unifying the line ends changes places and
shown lines only. -/
theorem compile_unifyNewlines {source : String} (h : Text.loneReturns source.toList = 0)
    (options : Options) (file : String) :
    (compile options source file).1.Agrees
      (compile options (String.ofList (Text.unifyNewlines source.toList)) file).1 := by
  have hfresh := unreturned_fresh h file options.precision (Text.splitLines (source ++ "\n"))
    (Text.splitLines (String.ofList (Text.unifyNewlines source.toList) ++ "\n"))
  have hrejected {d d' : Diagnostic} (htold : unreturned.Told d d') :
      Compilation.Agrees { verdict := .rejected d } { verdict := .rejected d' } :=
    ⟨rfl, rfl, rfl, rfl, rfl, congrArg some (told_unreturned htold)⟩
  rcases Parser.Pairing.start_alike unreturned_lawful hfresh with
    ⟨p, q, hp, hq, halike⟩ | ⟨d, d', hp, hq, htold⟩
  · have hpairs := Parser.Pairing.pairs_program unreturned_lawful halike
    have hp : Parser.ofSource source file options.precision = .ok p := hp
    have hq : Parser.ofSource (String.ofList (Text.unifyNewlines source.toList)) file
      options.precision = .ok q := hq
    simp only [compile, hp, hq]
    generalize Parser.program p = result at hpairs
    generalize Parser.program q = result' at hpairs
    cases hpairs with
    | ok h =>
      refine agrees_of_noted h.toNoted ?_
      rw [h.listing]
      exact ⟨rfl, rfl, rfl, rfl, rfl, rfl⟩
    | error htold h => exact agrees_of_noted h (hrejected htold)
    | ended hends _ => exact hends.elim
  · have hp : Parser.ofSource source file options.precision = .error d := hp
    have hq : Parser.ofSource (String.ofList (Text.unifyNewlines source.toList)) file
      options.precision = .error d' := hq
    simp only [compile, hp, hq]
    exact { hrejected htold with }

end TeenyLang
