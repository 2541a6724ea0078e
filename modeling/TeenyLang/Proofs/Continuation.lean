import TeenyLang.Compilation
import TeenyLang.Proofs.LikeRuns
import TeenyLang.Proofs.LineSeam
import TeenyLang.Proofs.ShownLine

set_option autoImplicit false

/-!
# A source that goes on

A parser that has refused a source has read one token more than it needed, and has looked up a line
of the source by its number. So the same source followed by a newline and any text that begins with
a token is refused with the same diagnostic (`targetText_append_error`), unless the diagnostic is
about the end of the source.
-/
namespace TeenyLang

open Lexical

/-! ## The lines of the longer source -/

theorem splitLines_isPrefix (source rest : String) :
    Text.splitLines (source ++ "\n") <+: Text.splitLines (source ++ "\n" ++ rest ++ "\n") := by
  have hchars : (source ++ "\n" ++ rest ++ "\n").toList =
      source.toList ++ '\n' :: (rest.toList ++ ['\n']) := by
    simp [String.toList_append]
  rw [Text.splitLines, Text.splitLines, hchars, Text.splitLinesFrom_append, List.map_append,
    String.toList_append]
  exact List.prefix_append _ _

theorem count_le_splitLines (source : String) :
    (source.toList ++ ['\n']).count '\n' ≤ (Text.splitLines (source ++ "\n")).length := by
  have hlines := Text.length_le_flatMap_parts (source.toList.splitOn '\n')
  rw [← Text.splitLinesFrom_eq_flatMap, length_splitOn] at hlines
  rw [Text.splitLines, List.length_map, String.toList_append, List.count_append]
  exact hlines

theorem sourceLine_of_prefix {σ τ : Type} {p : Parser σ} {q : Parser τ}
    (h : p.lines <+: q.lines) {line : Int} (hline : line ≤ p.lines.length) :
    p.sourceLine line = q.sourceLine line := by
  unfold Parser.sourceLine
  split
  · have hlt : line.toNat - 1 < p.lines.length := by omega
    obtain ⟨more, hmore⟩ := h
    rw [← hmore, List.getElem?_append_left hlt]
  · rfl

/-! ## The tokens of the longer source -/

/-- Whether a token is read hangs on the text ahead only. -/
theorem next_isOk_of_rest {s s' r : Scanner} {t : Token} (h : Scanner.next s = .ok t r)
    (hrest : s'.cursor.rest = s.cursor.rest) : ∃ u r', Scanner.next s' = .ok u r' := by
  unfold Scanner.next at h ⊢
  simp only [Cursor.advanceBy_rest, hrest] at h ⊢
  split at h
  · exact ⟨_, _, rfl⟩
  · cases h

/-- The tokens ahead in `text` and in the same text with `more` after it: they are the same, or the
first reader has nothing but the last newline of `text` left. -/
inductive Ahead (text more : List Char) : Lookahead Scanner → Lookahead Scanner → Prop
  | within {s : Scanner} {t u : Token} {before : List Char} (hplaced : Placed s.cursor before)
      (htext : before ++ s.cursor.rest = text) (hline : s.cursor.OnLine)
      (ht : t.location.line ≤ text.count '\n') (hu : u.location.line ≤ text.count '\n')
      (hlast : s.cursor.rest = [] → u.kind = .newline) :
      Ahead text more ⟨s, t, u⟩ ⟨s.extend more, t, u⟩
  | seam {s s' : Scanner} {t u u' : Token} {before : List Char} (hplaced : Placed s.cursor before)
      (hrest : s.cursor.rest = []) (hkind : t.kind = .newline)
      (ht : t.location.line ≤ text.count '\n') (hend : u.kind = .endOfInput) :
      Ahead text more ⟨s, t, u⟩ ⟨s', t, u'⟩

def continued (text more : List Char) : Parser.Pairing Scanner Scanner where
  tied := Ahead text more
  place a b := a = b ∧ a.line ≤ text.count '\n'
  shown := Eq
  fault := Eq
  counted := False
  shorter := True

section Laws

variable {text more : List Char}

theorem Ahead.current {l m : Lookahead Scanner} (h : Ahead text more l m) :
    l.current.Like (continued text more).place m.current := by
  cases h with
  | within _ _ _ ht _ _ => exact ⟨rfl, rfl, rfl, ht⟩
  | seam _ _ _ ht _ => exact ⟨rfl, rfl, rfl, ht⟩

/-- A token that is read before the last newline is past. -/
theorem next_within {s s' : Scanner} {t : Token} {before : List Char}
    (hplaced : Placed s.cursor before) (htext : before ++ s.cursor.rest = text)
    (hclosed : Closed text) (hnext : Scanner.next s = .ok t s') (hrest : s.cursor.rest ≠ []) :
    ∃ passed, Placed s'.cursor passed ∧ passed ++ s'.cursor.rest = text ∧
      t.location.line ≤ text.count '\n' ∧ (s'.cursor.rest = [] → t.kind = .newline) := by
  have hahead : Closed s.cursor.rest := (htext ▸ hclosed).suffix
  have hmore : t.kind ≠ .endOfInput := fun hend => hrest (rest_of_endOfInput hnext hend hahead)
  obtain ⟨p, rest, hpiece, hgap, hstands, -⟩ := piece_of_next hnext hmore hahead
  obtain ⟨r, hnext', -, hafter, hplaced'⟩ := next_of_piece hplaced hpiece hgap hstands
  cases hnext.symm.trans hnext'
  subst hafter
  rw [hpiece, Piece.chars, List.append_assoc] at htext hahead
  have hlexeme : Closed (p.lexeme ++ s'.cursor.rest) := hahead.suffix
  have hlast : (p.lexeme ++ s'.cursor.rest).getLast? = some '\n' :=
    hlexeme.resolve_left fun hnil => hstands.spells.ne_nil (List.append_eq_nil_iff.1 hnil).1
  refine ⟨before ++ p.chars, hplaced', ?_, ?_, fun hnil => ?_⟩
  · rw [← htext, Piece.chars, List.append_assoc, List.append_assoc]
  · have hpos := List.count_pos_iff.2 (List.mem_of_getLast? hlast)
    have hcount := congrArg (List.count '\n') htext
    rw [← List.append_assoc, List.count_append] at hcount
    simp only [placeAfter]
    omega
  · rw [hnil, List.append_nil] at hlast
    rcases hstands.spells.chars with ⟨hkind, -⟩ | ⟨-, hclean⟩
    · exact hkind
    · exact absurd rfl (hclean _ (List.mem_of_getLast? hlast)).1

/-- Both readers go on, or the first is at its end and the second at the text after it. -/
theorem Ahead.pulls (hclosed : Closed text)
    (hfirst : ∀ s : Scanner, s.cursor.rest = more → ∃ t r, Scanner.next s = .ok t r)
    {l m : Lookahead Scanner} (h : Ahead text more l m) :
    (continued text more).Pulls l m ∨
      l.current.kind = .newline ∧ l.peek.kind = .endOfInput ∧
        ∃ t s, Scanner.next l.supply = .ok t s := by
  cases h with
  | seam hplaced hrest hkind _ hend => exact .inr ⟨hkind, hend, _, _, next_of_nil hplaced hrest⟩
  | @within s t u before hplaced htext hline ht hu hlast =>
    left
    have hahead : Closed s.cursor.rest := (htext ▸ hclosed).suffix
    rcases hahead with hnil | hnewline
    · obtain ⟨v, r, hnext⟩ := hfirst (s.extend more) (by simp [Scanner.extend, Cursor.extend, hnil])
      exact .ok (next_of_nil hplaced hnil) hnext False.elim
        (.seam hplaced hnil (hlast hnil) hu rfl)
    · obtain ⟨x, hx⟩ := List.getLast?_eq_some_iff.1 hnewline
      obtain ⟨hok, herror⟩ := Scanner.next_extend hx hline more
      cases hnext : Scanner.next s with
      | error d r => exact .error hnext (herror d r hnext) rfl
      | ok v r =>
        obtain ⟨passed, hplaced', htext', hv, hlast'⟩ :=
          next_within hplaced htext hclosed hnext (by simp [hx])
        refine .ok hnext (hok v r hnext) False.elim ?_
        exact .within hplaced' htext' (Scanner.onLine_of_next hnext hline) hu hv hlast'

theorem continued_lawful (hclosed : Closed text)
    (hfirst : ∀ s : Scanner, s.cursor.rest = more → ∃ t r, Scanner.next s = .ok t r) :
    (continued text more).Lawful where
  shown_none := rfl
  current := Ahead.current
  pull h hpassable := (h.pulls hclosed hfirst).resolve_right fun hseam => hpassable.1 hseam.1
  skip := by
    refine Parser.Pairing.pairs_skipNewlines Ahead.current fun h _ => ?_
    exact (h.pulls hclosed hfirst).imp_right fun hseam => ⟨trivial, hseam.2⟩

end Laws

/-- The two parsers before their first tokens. -/
theorem continued_fresh (source rest file : String) (precision : Int) :
    (continued (source.toList ++ ['\n']) (rest.toList ++ ['\n'])).Alike
      (Parser.fresh precision (Text.splitLines (source ++ "\n")) (Scanner.start source file))
      (Parser.fresh precision (Text.splitLines (source ++ "\n" ++ rest ++ "\n"))
        (Scanner.start (source ++ "\n" ++ rest) file)) where
  precision := rfl
  variableNames := rfl
  labels := .nil
  jumps := .nil
  listing := rfl
  lines := by
    rintro a _ ⟨rfl, ha⟩
    refine sourceLine_of_prefix (splitLines_isPrefix source rest) (ha.trans ?_)
    exact Int.ofNat_le.2 (count_le_splitLines source)
  count := False.elim
  tied := by
    have hsupply : Scanner.start (source ++ "\n" ++ rest) file =
        (Scanner.start source file).extend (rest.toList ++ ['\n']) := by
      simp [Scanner.start, Scanner.extend, Cursor.extend, Cursor.start, String.toList_append]
    have hunread : Parser.unread.location.line ≤ (source.toList ++ ['\n']).count '\n' :=
      Int.natCast_nonneg _
    rw [Parser.lookahead, Parser.lookahead, Parser.fresh, Parser.fresh, hsupply]
    refine .within (placed_source source file) rfl ?_ hunread hunread ?_
    · exact List.suffix_rfl
    · intro hnil
      exact absurd hnil (by simp [Scanner.start, Cursor.start])

/-- Two diagnostics of these runs that say the same are the same. -/
theorem told_continued {text more : List Char} {d d' : Diagnostic}
    (h : (continued text more).Told d d') : d = d' := by
  cases h with
  | fault h => exact h
  | @refusal _ _ a b _ _ hcause hplace hshown =>
    obtain ⟨rfl, -⟩ : a = b ∧ _ := hplace
    cases hshown
    cases hcause with
    | same => rfl
    | duplicate label h => rw [h.1]
    | @undeclared labels as bs h =>
      have hsame : List.Forall₂ Eq as bs := h.imp fun _ _ h => h.1
      rw [List.forall₂_eq_eq_eq] at hsame
      rw [hsame]

/-- What a source is refused for does not depend on the text after it, unless it is the end of the
source: a block that is open there, or a label that is not declared up to there. -/
theorem targetText_append_error {source rest file name : String} {precision : Int} {d : Diagnostic}
    {t : Token} {s : Scanner} (h : targetText source file precision = .error d)
    (hbefore : ¬ d.AtEnd) (hnext : Scanner.next (Scanner.start rest name) = .ok t s) :
    targetText (source ++ "\n" ++ rest) file precision = .error d := by
  have hclosed : Closed (source.toList ++ ['\n']) := closed_source source file
  have law : (continued (source.toList ++ ['\n']) (rest.toList ++ ['\n'])).Lawful :=
    continued_lawful hclosed fun r hrest => next_isOk_of_rest hnext hrest
  rcases Parser.Pairing.start_alike law (continued_fresh source rest file precision) with
    ⟨p, q, hp, hq, halike⟩ | ⟨e, e', hp, hq, htold⟩
  · obtain ⟨p', hrun⟩ : ∃ p', Parser.program p = .error d p' := by
      rcases targetText_eq_error h with hstart | ⟨r, p', hr, hrun⟩
      · cases hp.symm.trans hstart
      · cases hp.symm.trans hr
        exact ⟨p', hrun⟩
    have hpairs := Parser.Pairing.pairs_program law halike
    rw [hrun] at hpairs
    generalize hrun' : Parser.program q = result at hpairs
    cases hpairs with
    | error htold _ =>
      obtain rfl := told_continued htold
      exact targetText_of_error (.inr ⟨q, _, hq, hrun'⟩)
    | ended _ hended => exact absurd hended hbefore
  · obtain rfl := told_continued htold
    cases h.symm.trans (targetText_of_error (.inl hp))
    exact targetText_of_error (.inl hq)

/-- The second `LABEL` is refused; the text after it closes no block and has a character that fits
no token. -/
theorem targetText_append_duplicate :
    targetText "IF 1 > 0 THEN\nLABEL a\nLABEL a" "f" 2 = .error
        ⟨.duplicateLabel "a" (some ⟨"f", 2, 7⟩), some ⟨"f", 3, 7⟩, some "LABEL a"⟩ ∧
      targetText ("IF 1 > 0 THEN\nLABEL a\nLABEL a" ++ "\n" ++ "GOTO $") "f" 2 = .error
        ⟨.duplicateLabel "a" (some ⟨"f", 2, 7⟩), some ⟨"f", 3, 7⟩, some "LABEL a"⟩ := by
  have hrefused : targetText "IF 1 > 0 THEN\nLABEL a\nLABEL a" "f" 2 = .error
      ⟨.duplicateLabel "a" (some ⟨"f", 2, 7⟩), some ⟨"f", 3, 7⟩, some "LABEL a"⟩ := by
    decide +kernel
  have hnext : Scanner.next (Scanner.start "GOTO $" "g") =
      .ok ⟨.keyword .GOTO, "GOTO", ⟨"g", 1, 1⟩⟩
        ⟨"g", [' ', '$', '\n'], 1, 5, ['G', 'O', 'T', 'O', ' ', '$', '\n']⟩ := by
    rfl
  refine ⟨hrefused, targetText_append_error hrefused ?_ hnext⟩
  simp [Diagnostic.AtEnd]

end TeenyLang
