import TeenyLang.Proofs.Tokenization

set_option autoImplicit false

/-!
# Reading up to a newline

No token and no gap reaches over a newline, so what is read before one does not depend on what
stands after it. Of a text and a longer text that goes on after a newline, a scanner reads the same
tokens and meets the same faults up to the end of the shorter one (`Scanner.next_extend`), and the
pieces of two texts with a newline between them are the pieces of the one and then of the other
(`IsSplit.append`).
-/
namespace TeenyLang

section Runs

variable {p : Char → Bool} {stop : Char} (hp : p stop = false) (x y : List Char)

include hp

theorem takeWhile_stop : (x ++ stop :: y).takeWhile p = x.takeWhile p := by
  induction x with
  | nil => simp [hp]
  | cons c x ih => by_cases hc : p c <;> simp [hc, ih]

theorem dropWhile_stop : (x ++ stop :: y).dropWhile p = x.dropWhile p ++ stop :: y := by
  induction x with
  | nil => simp [hp]
  | cons c x ih => by_cases hc : p c <;> simp [hc, ih]

end Runs

namespace Lexeme

theorem gap_newline (x y : List Char) : gap (x ++ '\n' :: y) = gap x := by
  have hblank : isBlank '\n' = false := by decide
  rw [gap, takeWhile_stop hblank, dropWhile_stop hblank, gap]
  cases x.dropWhile isBlank with
  | nil => rfl
  | cons c rest =>
    by_cases hc : c = '#'
    · subst hc
      change _ ++ (('#' :: rest) ++ '\n' :: y).takeWhile (· ≠ '\n') = _
      rw [takeWhile_stop (by decide)]
      rfl
    · rw [Lexical.comment_of_ne (by simp [hc]), Lexical.comment_of_ne (by simp [hc])]

theorem gap_prefix (x : List Char) : gap x <+: x := by
  have hcomment (y : List Char) : comment y <+: y := by
    unfold comment
    split
    · exact List.takeWhile_prefix _
    · exact List.nil_prefix
  have hblanks := (List.prefix_append_right_inj (x.takeWhile isBlank)).2
    (hcomment (x.dropWhile isBlank))
  rwa [List.takeWhile_append_dropWhile] at hblanks

theorem readString_newline (x y : List Char) :
    readString (x ++ '\n' :: y) = readString (x ++ ['\n']) := by
  have hstop : isStringChar '\n' = false := by decide
  simp only [readString, takeWhile_stop hstop, dropWhile_stop hstop]
  cases x.dropWhile isStringChar with
  | nil => rfl
  | cons c rest => by_cases hc : c = '"' <;> simp [hc]

theorem readNumber_newline (x y : List Char) :
    readNumber (x ++ '\n' :: y) = readNumber (x ++ ['\n']) := by
  have hdigit : Char.isDigit '\n' = false := by decide
  simp only [readNumber, takeWhile_stop hdigit, dropWhile_stop hdigit]
  cases x.dropWhile Char.isDigit with
  | nil => rfl
  | cons c rest =>
    by_cases hc : c = '.'
    · simp [hc, takeWhile_stop hdigit]
    · simp [hc]

theorem readWord_newline (x y : List Char) :
    readWord (x ++ '\n' :: y) = readWord (x ++ ['\n']) := by
  have hletter : Char.isAlphanum '\n' = false := by decide
  rw [readWord, readWord, takeWhile_stop hletter, takeWhile_stop hletter]

theorem readOperator_newline (c : Char) (x y : List Char) :
    readOperator c (x ++ '\n' :: y) = readOperator c (x ++ ['\n']) := by
  have hhead : (x ++ '\n' :: y).head? = (x ++ ['\n']).head? := by
    cases x <;> rfl
  unfold readOperator
  rw [hhead]

end Lexeme

/-- What stands after a newline plays no part in what is read before it. -/
theorem readLexeme_newline (x y : List Char) :
    readLexeme (x ++ '\n' :: y) = readLexeme (x ++ ['\n']) := by
  cases x with
  | nil => rfl
  | cons c x =>
    have hnumber := Lexeme.readNumber_newline (c :: x) y
    have hword := Lexeme.readWord_newline (c :: x) y
    simp only [List.cons_append] at hnumber hword
    simp only [List.cons_append, readLexeme, Lexeme.readString_newline, hnumber, hword,
      Lexeme.readOperator_newline]

/-- A character that fits no token stands at the next newline or before it. -/
theorem fault_le_newline {x y : List Char} {before : Nat} {cause : Cause}
    (h : readLexeme (x ++ '\n' :: y) = .fault before cause) : before ≤ x.length := by
  cases x with
  | nil => cases h
  | cons c x =>
    simp only [List.cons_append, readLexeme] at h
    repeat' split at h
    · cases h
    · have hle := (List.takeWhile_prefix Lexeme.isStringChar (l := x)).length_le
      simp only [Lexeme.readString, takeWhile_stop (show Lexeme.isStringChar '\n' = false by
        decide)] at h
      split at h <;> cases h
      all_goals simpa using hle
    · have hle := (List.takeWhile_prefix Char.isDigit (l := c :: x)).length_le
      rw [← List.cons_append] at h
      simp only [Lexeme.readNumber, takeWhile_stop (show Char.isDigit '\n' = false by
        decide)] at h
      repeat' split at h
      all_goals cases h
      exact hle
    · cases h
    · unfold Lexeme.readOperator at h
      simp only at h
      repeat' split at h
      all_goals cases h
      all_goals exact Nat.zero_le _

/-! ## A scanner on a longer text -/

namespace Cursor

/-- The cursor at the same place of a text that goes on with `more` where its own ends. -/
def extend (more : List Char) (c : Cursor) : Cursor :=
  { c with rest := c.rest ++ more, lineStart := c.lineStart ++ more }

theorem advance_extend {c : Cursor} (h : c.rest ≠ []) (more : List Char) :
    (c.extend more).advance = c.advance.extend more := by
  obtain ⟨x, rest, hrest⟩ := List.exists_cons_of_ne_nil h
  simp only [advance, extend, hrest, List.cons_append]
  split <;> simp_all

theorem advanceBy_extend {n : Nat} {c : Cursor} (h : n ≤ c.rest.length) (more : List Char) :
    (c.extend more).advanceBy n = (c.advanceBy n).extend more := by
  induction n generalizing c with
  | zero => rfl
  | succ n ih =>
    have hne : c.rest ≠ [] := by
      rintro hnil
      simp [hnil] at h
    have hle : n ≤ c.advance.rest.length := by
      rw [advance_rest, List.length_tail]
      omega
    rw [advanceBy, advanceBy, advance_extend hne, ih hle]

/-- The current line goes on up to the text that is left. -/
def OnLine (c : Cursor) : Prop :=
  c.rest <:+ c.lineStart

theorem OnLine.advance {c : Cursor} (h : c.OnLine) : c.advance.OnLine := by
  unfold OnLine at h ⊢
  unfold Cursor.advance
  split
  · exact h
  · exact List.suffix_rfl
  · next hrest =>
    rw [hrest] at h
    exact (List.suffix_cons _ _).trans h

theorem OnLine.advanceBy {c : Cursor} (h : c.OnLine) (n : Nat) : (c.advanceBy n).OnLine := by
  induction n generalizing c with
  | zero => exact h
  | succ n ih => exact ih h.advance

theorem currentLine_extend {c : Cursor} (h : c.OnLine) (hnewline : '\n' ∈ c.rest)
    (more : List Char) : (c.extend more).currentLine = c.currentLine := by
  obtain ⟨x, y, hsplit⟩ := List.append_of_mem (h.subset hnewline)
  have hstop : (fun c : Char => decide (c ≠ '\n')) '\n' = false := by decide
  rw [currentLine, currentLine, extend, hsplit, List.append_assoc, List.cons_append,
    takeWhile_stop hstop, takeWhile_stop hstop]

end Cursor

namespace Scanner

/-- The scanner at the same place of a text that goes on with `more` where its own ends. -/
def extend (more : List Char) (s : Scanner) : Scanner :=
  { s with cursor := s.cursor.extend more }

theorem onLine_of_next {s s' : Scanner} {t : Token} (h : next s = .ok t s')
    (hline : s.cursor.OnLine) : s'.cursor.OnLine := by
  unfold next at h
  simp only at h
  split at h
  · cases h
    exact (hline.advanceBy _).advanceBy _
  · cases h

/-- As long as a newline is left to read, a longer text makes no difference. -/
theorem next_extend {s : Scanner} {x : List Char} (htext : s.cursor.rest = x ++ ['\n'])
    (hline : s.cursor.OnLine) (more : List Char) :
    (∀ t s', next s = .ok t s' → next (s.extend more) = .ok t (s'.extend more)) ∧
      ∀ d s', next s = .error d s' → next (s.extend more) = .error d (s'.extend more) := by
  have hlonger : (s.extend more).cursor.rest = x ++ '\n' :: more := by
    simp [extend, Cursor.extend, htext]
  have hgap : Lexeme.gap (s.extend more).cursor.rest = Lexeme.gap s.cursor.rest := by
    rw [hlonger, htext, Lexeme.gap_newline, Lexeme.gap_newline]
  have hle : (Lexeme.gap s.cursor.rest).length ≤ x.length := by
    rw [htext, Lexeme.gap_newline]
    exact (Lexeme.gap_prefix x).length_le
  simp only [next, hgap]
  -- the cursor after the gap still has the newline ahead
  generalize (Lexeme.gap s.cursor.rest).length = n at hle
  have hcursor : (s.extend more).cursor.advanceBy n = (s.cursor.advanceBy n).extend more :=
    Cursor.advanceBy_extend (by rw [htext, List.length_append]; omega) more
  have honLine := hline.advanceBy n
  have hrest : (s.cursor.advanceBy n).rest = x.drop n ++ ['\n'] := by
    rw [Cursor.advanceBy_rest, htext, List.drop_append_of_le_length hle]
  rw [hcursor]
  generalize s.cursor.advanceBy n = c at hrest honLine
  generalize x.drop n = y at hrest
  have hread : readLexeme (c.extend more).rest = readLexeme c.rest := by
    rw [hrest, ← readLexeme_newline y more]
    simp [Cursor.extend, hrest]
  rw [hread]
  cases hlexeme : readLexeme c.rest with
  | found kind text length =>
    obtain ⟨lexeme, after, hsplit, rfl, -⟩ := Lexical.readLexeme_begins hlexeme (by simp [hrest])
    have hmoved := Cursor.advanceBy_extend (n := lexeme.length) (c := c) (by simp [hsplit]) more
    simp only [hmoved]
    constructor
    · rintro t s' ⟨⟩
      rfl
    · rintro d s' ⟨⟩
  | fault before cause =>
    have hbefore : before ≤ y.length := fault_le_newline (hrest ▸ hlexeme)
    have hmoved := Cursor.advanceBy_extend (n := before) (c := c)
      (by rw [hrest, List.length_append]; omega) more
    have hnewline : '\n' ∈ (c.advanceBy before).rest := by
      simp [hrest, List.drop_append_of_le_length hbefore]
    simp only [hmoved, Cursor.currentLine_extend (honLine.advanceBy before) hnewline]
    constructor
    · rintro t s' ⟨⟩
    · rintro d s' ⟨⟩
      rfl

end Scanner

/-! ## Pieces on both sides of a newline -/

namespace Lexical

theorem Stands.append {kind : Kind} {text : String} {lexeme rest : List Char}
    (h : Stands kind text lexeme rest) (hclosed : Closed (lexeme ++ rest)) (more : List Char) :
    Stands kind text lexeme (rest ++ more) := by
  obtain ⟨x, hx⟩ : ∃ x, lexeme ++ rest = x ++ ['\n'] := by
    rcases hclosed with hnil | hlast
    · exact absurd (List.append_eq_nil_iff.1 hnil).1 h.spells.ne_nil
    · exact List.getLast?_eq_some_iff.1 hlast
  have hread : readLexeme (lexeme ++ (rest ++ more)) = .found kind text lexeme.length := by
    rw [← readLexeme_of_stands h, ← List.append_assoc, hx, ← readLexeme_newline x more,
      List.append_assoc]
    rfl
  obtain ⟨lexeme', rest', hsplit, hlength, hstands⟩ :=
    stands_of_readLexeme hread (by simp [h.spells.ne_nil])
  obtain ⟨rfl, rfl⟩ := List.append_inj hsplit hlength.symm
  exact hstands

/-- The pieces of a text that ends with a newline and those of any text after it are the pieces of
the two together. -/
theorem IsSplit.append {pieces pieces' : List Piece} {text text' : List Char}
    (h : IsSplit pieces text) (hclosed : Closed text) (h' : IsSplit pieces' text') :
    IsSplit (pieces ++ pieces') (text ++ text') := by
  induction h with
  | nil => exact h'
  | @cons p pieces rest hgap hstands _ ih =>
    rw [Piece.chars, List.append_assoc] at hclosed
    have hlexeme := hclosed.suffix
    rw [List.append_assoc]
    refine .cons ?_ (hstands.append hlexeme text') (ih hlexeme.suffix)
    obtain ⟨blanks, comment, hparts, hblanks, hcomment⟩ := hgap
    refine ⟨blanks, comment, hparts, hblanks, hcomment.imp_right ?_⟩
    rintro ⟨remark, hremark, hclean, hnewline⟩
    refine ⟨remark, hremark, hclean, ?_⟩
    rw [← List.append_assoc, List.head?_append, hnewline]
    rfl

end Lexical

end TeenyLang
