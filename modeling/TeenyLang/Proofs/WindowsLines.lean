import TeenyLang.Proofs.Layout
import TeenyLang.Proofs.LineEnds

set_option autoImplicit false

/-!
# A carriage return before each newline

A carriage return before a newline is skipped with the blanks there, belongs to the comment there,
or ends a lexeme where the newline would have ended it. So a text and the same text with carriage
returns put before its newlines are read side by side: the same tokens in the same lines, in the
same columns but for the newlines themselves, and a fault in the one is a fault of the same class
in the same line of the other (`readAll_withReturns`). Other carriage returns may stand in both.
-/
namespace TeenyLang

namespace Text

def withReturns (source : String) : String :=
  String.ofList (source.toList.flatMap fun c => if c = '\n' then ['\r', '\n'] else [c])

/-- The second text is the first with a carriage return put before some of the newlines. -/
inductive Returned : List Char → List Char → Prop
  | nil : Returned [] []
  | cons (c : Char) {x y : List Char} (h : Returned x y) : Returned (c :: x) (c :: y)
  | newline {x y : List Char} (h : Returned x y) : Returned ('\n' :: x) ('\r' :: '\n' :: y)

theorem Returned.prepend (u : List Char) {x y : List Char} (h : Returned x y) :
    Returned (u ++ x) (u ++ y) := by
  induction u with
  | nil => exact h
  | cons c u ih => exact .cons c ih

/-- The newline after the source has no carriage return before it. -/
theorem returned_withReturns (source : String) :
    Returned (source.toList ++ ['\n']) ((withReturns source).toList ++ ['\n']) := by
  rw [withReturns, String.toList_ofList]
  induction source.toList with
  | nil => exact .cons '\n' .nil
  | cons c text ih =>
    by_cases hc : c = '\n'
    · subst hc
      exact .newline ih
    · rw [List.flatMap_cons, if_neg hc]
      exact .cons c ih

/-- The two are the same up to the first newline, or the carriage return before it. -/
theorem Returned.first_newline {x y : List Char} (h : Returned x y) (hmem : '\n' ∈ x) :
    ∃ u returns w w', '\n' ∉ u ∧ (returns = [] ∨ returns = ['\r']) ∧ x = u ++ '\n' :: w ∧
      y = u ++ (returns ++ '\n' :: w') ∧ Returned w w' := by
  induction h with
  | nil => cases hmem
  | @cons c x y h ih =>
    by_cases hc : c = '\n'
    · subst hc
      exact ⟨[], [], x, y, by simp, .inl rfl, rfl, rfl, h⟩
    · obtain ⟨u, returns, w, w', hu, hreturns, rfl, rfl, hrest⟩ :=
        ih ((List.mem_cons.1 hmem).resolve_left (Ne.symm hc))
      exact ⟨c :: u, returns, w, w', by simp [hu, Ne.symm hc], hreturns, rfl, rfl, hrest⟩
  | @newline x y h => exact ⟨[], ['\r'], x, y, by simp, .inr rfl, rfl, rfl, h⟩

end Text

/-! ## Before a newline -/

namespace Lexical

/-- What stands before a newline is a gap, or a character that begins no gap comes after its
blanks. -/
theorem isGap_or_head {u : List Char} (hu : '\n' ∉ u) :
    IsGap u ['\n'] ∨ ∃ blanks c rest, u = blanks ++ c :: rest ∧
      (∀ c ∈ blanks, c ∈ [' ', '\t', '\r']) ∧ Lexeme.isBlank c = false ∧ c ≠ '#' := by
  have hsplit := (List.takeWhile_append_dropWhile (p := Lexeme.isBlank) (l := u)).symm
  have hblanks : ∀ c ∈ u.takeWhile Lexeme.isBlank, c ∈ [' ', '\t', '\r'] :=
    fun c hc => (isBlank_iff c).1 (List.mem_takeWhile_imp hc)
  have hhead := head_dropWhile (p := Lexeme.isBlank) u
  cases hdrop : u.dropWhile Lexeme.isBlank with
  | nil =>
    rw [hdrop] at hsplit
    exact .inl ⟨_, [], hsplit, hblanks, .inl rfl⟩
  | cons c rest =>
    rw [hdrop] at hsplit hhead
    by_cases hc : c = '#'
    · subst hc
      refine .inl ⟨_, _, hsplit, hblanks, .inr ⟨rest, rfl, fun hmem => hu ?_, rfl⟩⟩
      rw [hsplit]
      simp [hmem]
    · exact .inr ⟨_, c, rest, hsplit, hblanks, hhead c rfl, hc⟩

theorem IsGap.returns {u returns : List Char} (h : IsGap u ['\n'])
    (hreturns : ∀ c ∈ returns, c = '\r') : IsGap (u ++ returns) ['\n'] := by
  obtain ⟨blanks, comment, rfl, hblanks, rfl | ⟨remark, rfl, hremark, -⟩⟩ := h
  · refine ⟨blanks ++ returns, [], by simp, ?_, .inl rfl⟩
    exact List.forall_mem_append.2 ⟨hblanks, fun c hc => by simp [hreturns c hc]⟩
  · refine ⟨blanks, '#' :: (remark ++ returns), by simp, hblanks, .inr ⟨_, rfl, ?_, rfl⟩⟩
    rintro hmem
    rcases List.mem_append.1 hmem with hmem | hmem
    · exact hremark hmem
    · exact absurd (hreturns _ hmem) (by decide)

theorem gap_of_isGap_newline {u : List Char} (h : IsGap u ['\n']) : Lexeme.gap u = u := by
  rw [← Lexeme.gap_newline u []]
  exact gap_of_isGap h (by simp [Lexeme.isBlank])

/-- A gap up to a newline takes in the carriage returns before it, any other gap does not change. -/
theorem gap_returns {u v returns : List Char} (hu : '\n' ∉ u) (hv : Lexeme.gap u ++ v = u)
    (hreturns : ∀ c ∈ returns, c = '\r') :
    Lexeme.gap (u ++ returns) = if v = [] then u ++ returns else Lexeme.gap u := by
  rcases isGap_or_head hu with hgap | ⟨blanks, c, rest, rfl, hblanks, hblank, hsharp⟩
  · rw [gap_of_isGap_newline hgap, List.append_right_eq_self] at hv
    rw [if_pos hv, gap_of_isGap_newline (hgap.returns hreturns)]
  · have hhead (more : List Char) : Lexeme.gap (blanks ++ c :: more) = blanks := by
      refine gap_of_isGap ⟨blanks, [], by simp, hblanks, .inl rfl⟩ ?_
      simp [hblank, hsharp]
    rw [hhead, List.append_cancel_left_eq] at hv
    rw [List.append_assoc, List.cons_append, hhead, hhead, if_neg (by simp [hv])]

/-- A lexeme that does not begin with a newline ends before the next one. -/
theorem found_le_newline {v w : List Char} {kind : Kind} {text : String} {length : Nat}
    (h : readLexeme (v ++ '\n' :: w) = .found kind text length) (hne : v ≠ []) :
    length ≤ v.length := by
  obtain ⟨lexeme, rest, hsplit, rfl, hspells, -⟩ := readLexeme_begins h (by simp)
  have hbegins : lexeme <+: v ++ '\n' :: w := ⟨rest, hsplit.symm⟩
  by_contra hlt
  have hnewline : v ++ ['\n'] <+: lexeme := by
    refine List.prefix_of_prefix_length_le ⟨w, by simp⟩ hbegins ?_
    rw [List.length_append, List.length_singleton]
    omega
  rcases hspells.chars with ⟨-, rfl⟩ | ⟨-, hclean⟩
  · have hlength := hnewline.length_le
    simp [hne] at hlength
  · exact (hclean '\n' (hnewline.subset (by simp))).1 rfl

end Lexical

namespace Cursor

@[simp] theorem location_line (c : Cursor) (file : String) : (c.location file).line = c.line :=
  rfl

@[simp] theorem location_column (c : Cursor) (file : String) :
    (c.location file).column = c.column :=
  rfl

/-- Moving on within a line. -/
theorem advanceBy_inline {c : Cursor} {passed rest : List Char} (hrest : c.rest = passed ++ rest)
    (hpassed : '\n' ∉ passed) :
    c.advanceBy passed.length = ⟨rest, c.line, c.column + passed.length, c.lineStart⟩ := by
  induction passed generalizing c with
  | nil =>
    rw [List.nil_append] at hrest
    rw [← hrest]
    rfl
  | cons x passed ih =>
    simp only [List.mem_cons, not_or] at hpassed
    have hadvance : c.advance = ⟨passed ++ rest, c.line, c.column + 1, c.lineStart⟩ := by
      unfold advance
      rw [hrest]
      split <;> simp_all
    rw [List.length_cons, advanceBy, hadvance, ih rfl hpassed.2, Nat.add_assoc, Nat.add_comm 1]

end Cursor

/-! ## One token -/

/-- The same token in the same line, and in the same column if it is not a newline. -/
structure Token.Alongside (t u : Token) : Prop where
  kind : t.kind = u.kind
  text : t.text = u.text
  line : t.location.line = u.location.line
  column : t.kind ≠ .newline → t.location.column = u.location.column

structure Diagnostic.Alongside (d d' : Diagnostic) : Prop where
  errorClass : d.cause.errorClass = d'.cause.errorClass
  line : ∃ a b, d.location = some a ∧ d'.location = some b ∧ a.line = b.line

/-- Two scanners in the same line and column, of which the second has a carriage return before some
of the newlines ahead. -/
structure Scanner.Alongside (s s' : Scanner) : Prop where
  line : s.cursor.line = s'.cursor.line
  column : s.cursor.column = s'.cursor.column
  rest : Text.Returned s.cursor.rest s'.cursor.rest
  closed : Lexical.Closed s.cursor.rest

inductive ReadAlongside :
    EStateM.Result Diagnostic Scanner Token → EStateM.Result Diagnostic Scanner Token → Prop
  | ok {t u : Token} {s s' : Scanner} (htoken : t.Alongside u) (h : s.Alongside s') :
      ReadAlongside (.ok t s) (.ok u s')
  | error {d d' : Diagnostic} {s s' : Scanner} (h : d.Alongside d') :
      ReadAlongside (.error d s) (.error d' s')

namespace Scanner

variable {s s' : Scanner} {c c' : Cursor}

theorem next_of_found {kind : Kind} {text : String} {length : Nat}
    (hgap : s.cursor.advanceBy (Lexeme.gap s.cursor.rest).length = c)
    (h : readLexeme c.rest = .found kind text length) :
    next s = .ok ⟨kind, text, c.location s.file⟩ ⟨s.file, c.advanceBy length⟩ := by
  simp only [next, hgap, h]

theorem next_of_fault {before : Nat} {cause : Cause}
    (hgap : s.cursor.advanceBy (Lexeme.gap s.cursor.rest).length = c)
    (h : readLexeme c.rest = .fault before cause) :
    next s = .error ⟨cause, some ((c.advanceBy before).location s.file),
      some (c.advanceBy before).currentLine⟩ ⟨s.file, c.advanceBy before⟩ := by
  simp only [next, hgap, h]

/-- After its gap either scanner stands at a newline. The columns need not be the same. -/
theorem alongside_newline {w w' : List Char}
    (hgap : s.cursor.advanceBy (Lexeme.gap s.cursor.rest).length = c)
    (hgap' : s'.cursor.advanceBy (Lexeme.gap s'.cursor.rest).length = c')
    (hrest : c.rest = '\n' :: w) (hrest' : c'.rest = '\n' :: w') (hline : c.line = c'.line)
    (hw : Text.Returned w w') (hclosed : Lexical.Closed c.rest) :
    ReadAlongside (next s) (next s') := by
  have hnewline {c : Cursor} {w : List Char} (hrest : c.rest = '\n' :: w) :
      c.advanceBy 1 = ⟨w, c.line + 1, 1, w⟩ := by
    simp [Cursor.advanceBy, Cursor.advance, hrest]
  rw [next_of_found hgap (by rw [hrest]; rfl), next_of_found hgap' (by rw [hrest']; rfl)]
  refine .ok ⟨rfl, rfl, by simpa using hline, fun hkind => absurd rfl hkind⟩ ?_
  constructor <;> simp only [hnewline hrest, hnewline hrest', hline]
  · exact hw
  · rw [hrest, ← List.singleton_append] at hclosed
    exact hclosed.suffix

/-- After its gap either scanner stands at the same characters of the same line. -/
theorem alongside_lexeme {v w w' returns : List Char}
    (hgap : s.cursor.advanceBy (Lexeme.gap s.cursor.rest).length = c)
    (hgap' : s'.cursor.advanceBy (Lexeme.gap s'.cursor.rest).length = c')
    (hv : '\n' ∉ v) (hne : v ≠ []) (hreturns : returns = [] ∨ returns = ['\r'])
    (hrest : c.rest = v ++ '\n' :: w) (hrest' : c'.rest = v ++ (returns ++ '\n' :: w'))
    (hline : c.line = c'.line) (hcolumn : c.column = c'.column) (hw : Text.Returned w w')
    (hclosed : Lexical.Closed c.rest) : ReadAlongside (next s) (next s') := by
  have hlexeme : (readLexeme c'.rest).Similar (readLexeme c.rest) := by
    rw [hrest, hrest', readLexeme_newline]
    rcases hreturns with rfl | rfl
    · rw [List.nil_append, readLexeme_newline]
      exact .refl _
    · obtain ⟨x, v, rfl⟩ := List.exists_cons_of_ne_nil hne
      exact readLexeme_return v _
  -- a token or a fault takes up a part of `v`, so that both cursors move on in the line
  have hsteps {n : Nat} (hle : n ≤ v.length) : ∃ more, more <:+ v ∧
      c.advanceBy n = ⟨more ++ '\n' :: w, c.line, c.column + n, c.lineStart⟩ ∧
      c'.advanceBy n = ⟨more ++ (returns ++ '\n' :: w'), c.line, c.column + n, c'.lineStart⟩ := by
    have hlength := List.length_take_of_le hle
    have hclean : '\n' ∉ v.take n := fun hmem => hv (List.mem_of_mem_take hmem)
    rw [← List.take_append_drop n v, List.append_assoc] at hrest hrest'
    have hmoved := Cursor.advanceBy_inline hrest hclean
    have hmoved' := Cursor.advanceBy_inline hrest' hclean
    rw [hlength] at hmoved hmoved'
    exact ⟨v.drop n, List.drop_suffix n v, hmoved, by rw [hmoved', hline, hcolumn]⟩
  have hfault {before : Nat} {cause cause' : Cause}
      (hread : readLexeme c.rest = .fault before cause)
      (hread' : readLexeme c'.rest = .fault before cause')
      (hclass : cause'.errorClass = cause.errorClass) : ReadAlongside (next s) (next s') := by
    obtain ⟨more, -, hmoved, hmoved'⟩ := hsteps (fault_le_newline (hrest ▸ hread))
    rw [next_of_fault hgap hread, next_of_fault hgap' hread', hmoved, hmoved']
    exact .error ⟨hclass.symm, _, _, rfl, rfl, rfl⟩
  generalize hread : readLexeme c.rest = lexeme at hlexeme
  generalize hread' : readLexeme c'.rest = lexeme' at hlexeme
  cases hlexeme with
  | fault before hclass => exact hfault hread hread' hclass
  | refl =>
    cases lexeme with
    | fault before cause => exact hfault hread hread' rfl
    | found kind text length =>
      obtain ⟨more, ⟨taken, rfl⟩, hmoved, hmoved'⟩ :=
        hsteps (Lexical.found_le_newline (hrest ▸ hread) hne)
      have hmore : Text.Returned ('\n' :: w) (returns ++ '\n' :: w') := by
        rcases hreturns with rfl | rfl
        · exact .cons _ hw
        · exact .newline hw
      rw [next_of_found hgap hread, next_of_found hgap' hread', hmoved, hmoved']
      refine .ok ⟨rfl, rfl, by simpa using hline, fun _ => by simpa using hcolumn⟩ ?_
      rw [hrest, List.append_assoc] at hclosed
      exact ⟨rfl, rfl, hmore.prepend more, hclosed.suffix⟩

theorem Alongside.next (h : s.Alongside s') : ReadAlongside (next s) (next s') := by
  rcases h.closed with hnil | hlast
  · have hnil' : s'.cursor.rest = [] := by
      have hrest := h.rest
      rw [hnil] at hrest
      generalize s'.cursor.rest = y at hrest
      cases hrest
      rfl
    have hstay {s : Scanner} (hnil : s.cursor.rest = []) :
        s.cursor.advanceBy (Lexeme.gap s.cursor.rest).length = s.cursor := by
      rw [hnil]
      rfl
    rw [next_of_found (hstay hnil) (by rw [hnil]; rfl),
      next_of_found (hstay hnil') (by rw [hnil']; rfl)]
    exact .ok ⟨rfl, rfl, by simpa using h.line, fun _ => by simpa using h.column⟩ h
  · obtain ⟨u, returns, w, w', hu, hreturns, hrest, hrest', hw⟩ :=
      h.rest.first_newline (List.mem_of_getLast? hlast)
    obtain ⟨v, hv⟩ := Lexeme.gap_prefix u
    have hclean : ∀ c ∈ returns, c = '\r' := by
      rcases hreturns with rfl | rfl <;> simp
    have hgap : Lexeme.gap s.cursor.rest = Lexeme.gap u := by
      rw [hrest, Lexeme.gap_newline]
    have hgap' : Lexeme.gap s'.cursor.rest = if v = [] then u ++ returns else Lexeme.gap u := by
      rw [hrest', ← List.append_assoc, Lexeme.gap_newline, Lexical.gap_returns hu hv hclean]
    have hclosed := h.closed
    rw [hrest] at hclosed
    generalize Lexeme.gap u = gap at hv hgap hgap'
    subst hv
    rw [List.append_assoc] at hrest hrest' hclosed
    have hgapClean : '\n' ∉ gap := fun hmem => hu (List.mem_append_left _ hmem)
    have hcursor := Cursor.advanceBy_inline hrest hgapClean
    rw [← hgap] at hcursor
    by_cases hne : v = []
    · subst hne
      rw [if_pos rfl, List.append_nil] at hgap'
      rw [List.nil_append, ← List.append_assoc] at hrest'
      have hcursor' := Cursor.advanceBy_inline hrest' (by
        rintro hmem
        rcases List.mem_append.1 hmem with hmem | hmem
        · exact hgapClean hmem
        · exact absurd (hclean _ hmem) (by decide))
      rw [← hgap'] at hcursor'
      exact alongside_newline hcursor hcursor' rfl rfl h.line hw hclosed.suffix
    · rw [if_neg hne] at hgap'
      have hcursor' := Cursor.advanceBy_inline hrest' hgapClean
      rw [← hgap'] at hcursor'
      have hvClean : '\n' ∉ v := fun hmem => hu (List.mem_append_right _ hmem)
      refine alongside_lexeme hcursor hcursor' hvClean hne hreturns rfl rfl h.line ?_ hw
        hclosed.suffix
      simp only [h.column, hgap, hgap']

/-! ## All tokens -/

theorem Alongside.readAll (h : s.Alongside s') :
    Option.Rel Diagnostic.Alongside s.readAll.failure s'.readAll.failure ∧
      List.Forall₂ Token.Alongside s.readAll.tokens s'.readAll.tokens := by
  induction s using WellFounded.induction (measure fun s : Scanner => s.cursor.rest.length).wf
    generalizing s' with
  | _ s ih =>
    have hnext := h.next
    generalize hread : Scanner.next s = result at hnext
    generalize hread' : Scanner.next s' = result' at hnext
    cases hnext with
    | error hfault =>
      rw [readAll_of_error hread, readAll_of_error hread']
      exact ⟨.some hfault, .nil⟩
    | @ok t u r r' htoken hafter =>
      rw [readAll_of_ok hread, readAll_of_ok hread', ← htoken.kind]
      by_cases hend : t.kind = .endOfInput
      · rw [if_pos hend, if_pos hend]
        exact ⟨.none, .cons htoken .nil⟩
      · obtain ⟨hfailure, htokens⟩ := ih r (next_lt hread hend) hafter
        rw [if_neg hend, if_neg hend]
        exact ⟨hfailure, .cons htoken htokens⟩

theorem alongside_withReturns (source file : String) :
    (start source file).Alongside (start (Text.withReturns source) file) := by
  -- stated for any text, so that the two texts are not compared
  have hplace (text : String) :
      (start text file).cursor.line = 1 ∧ (start text file).cursor.column = 1 := ⟨rfl, rfl⟩
  exact ⟨(hplace _).1.trans (hplace _).1.symm, (hplace _).2.trans (hplace _).2.symm,
    Text.returned_withReturns source, Lexical.closed_source source file⟩

end Scanner

/-! ## A whole run -/

def returned : Parser.Pairing Scanner Scanner where
  tied l m := l.current.Alongside m.current ∧ l.peek.Alongside m.peek ∧
    l.supply.Alongside m.supply
  place a b := a.line = b.line
  shown _ _ := True
  fault := Diagnostic.Alongside
  counted := True
  shorter := False

theorem returned_pulls {l m : Lookahead Scanner} (h : returned.tied l m) : returned.Pulls l m := by
  obtain ⟨-, hpeek, hsupply⟩ := h
  have hnext := hsupply.next
  generalize hread : Scanner.next l.supply = result at hnext
  generalize hread' : Scanner.next m.supply = result' at hnext
  cases hnext with
  | ok htoken hafter =>
    exact .ok hread hread' (fun _ => by rw [htoken.kind]) ⟨hpeek, htoken, hafter⟩
  | error h => exact .error hread hread' h

theorem returned_current {l m : Lookahead Scanner} (h : returned.tied l m) :
    l.current.Like returned.place m.current :=
  ⟨h.1.kind, h.1.text, h.1.line⟩

theorem returned_lawful : returned.Lawful where
  shown_none := trivial
  current := returned_current
  pull h _ := returned_pulls h
  skip := Parser.Pairing.pairs_skipNewlines returned_current fun h _ => .inl (returned_pulls h)

theorem told_returned {d d' : Diagnostic} (h : returned.Told d d') : d.Alongside d' := by
  cases h with
  | fault h => exact h
  | refusal hcause hplace _ => exact ⟨hcause.errorClass_eq, _, _, rfl, rfl, hplace⟩

theorem returned_fresh (source file : String) (precision : Int) (lines lines' : List String) :
    returned.Alike (Parser.fresh precision lines (Scanner.start source file))
      (Parser.fresh precision lines' (Scanner.start (Text.withReturns source) file)) where
  precision := rfl
  variableNames := rfl
  labels := .nil
  jumps := .nil
  listing := rfl
  lines _ _ _ := trivial
  count _ := rfl
  tied := ⟨⟨rfl, rfl, rfl, fun _ => rfl⟩, ⟨rfl, rfl, rfl, fun _ => rfl⟩,
    Scanner.alongside_withReturns source file⟩

inductive VerdictAlongside : Except Diagnostic String → Except Diagnostic String → Prop
  | ok (text : String) : VerdictAlongside (.ok text) (.ok text)
  | error {d d' : Diagnostic} (h : d.Alongside d') : VerdictAlongside (.error d) (.error d')

theorem targetText_withReturns (source file : String) (precision : Int) :
    VerdictAlongside (targetText source file precision)
      (targetText (Text.withReturns source) file precision) := by
  rcases Parser.Pairing.start_alike returned_lawful (returned_fresh source file precision
      (Text.splitLines (source ++ "\n"))
      (Text.splitLines (Text.withReturns source ++ "\n"))) with
    ⟨p, q, hp, hq, halike⟩ | ⟨d, d', hp, hq, htold⟩
  · have hpairs := Parser.Pairing.pairs_program returned_lawful halike
    rw [targetText_eq_verdict hp, targetText_eq_verdict hq]
    generalize Parser.program p = result at hpairs
    generalize Parser.program q = result' at hpairs
    cases hpairs with
    | ok h =>
      change VerdictAlongside (.ok _) (.ok _)
      rw [h.listing]
      exact .ok _
    | error htold _ => exact .error (told_returned htold)
    | ended hends _ => exact hends.elim
  · rw [targetText_of_error (.inl hp), targetText_of_error (.inl hq)]
    exact .error (told_returned htold)

/-- With a carriage return put before each newline a source is read to the same end, or both fail
with diagnostics of the same class in the same line. The tokens are the same and in the same places,
but for the columns of newlines. The one is translated exactly if the other is, to the same text,
and if they are refused, then for causes of the same class in the same line. -/
theorem readAll_withReturns (source file : String) (precision : Int) :
    Option.Rel Diagnostic.Alongside (Scanner.start source file).readAll.failure
      (Scanner.start (Text.withReturns source) file).readAll.failure ∧
    List.Forall₂ Token.Alongside (Scanner.start source file).readAll.tokens
      (Scanner.start (Text.withReturns source) file).readAll.tokens ∧
    (∀ text, targetText source file precision = .ok text ↔
      targetText (Text.withReturns source) file precision = .ok text) ∧
    (∀ d d', targetText source file precision = .error d →
      targetText (Text.withReturns source) file precision = .error d' → d.Alongside d') := by
  obtain ⟨hfailure, htokens⟩ := (Scanner.alongside_withReturns source file).readAll
  have hverdict := targetText_withReturns source file precision
  refine ⟨hfailure, htokens, ?_⟩
  generalize targetText source file precision = verdict at hverdict
  generalize targetText (Text.withReturns source) file precision = verdict' at hverdict
  cases hverdict with
  | ok text => exact ⟨fun _ => Iff.rfl, fun _ _ h => nomatch h⟩
  | error h =>
    refine ⟨fun _ => ⟨(fun h => nomatch h), fun h => nomatch h⟩, ?_⟩
    rintro _ _ ⟨⟩ ⟨⟩
    exact h

end TeenyLang
