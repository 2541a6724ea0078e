import TeenyLang.Proofs.LineSeam
import TeenyLang.Proofs.ShownLine

set_option autoImplicit false

/-!
# Scanners after any calls

A client may go on asking a scanner after it has failed. The scanner then stands on the character
that it has complained about, in the middle of a token perhaps, and goes on from there. Whatever the
calls were, its line and column are those of the place it stands at (`Tracks`), every step moves it
over characters of the source in their order, and what it complains about is the character it stands
on, with the line around it.
-/
namespace TeenyLang

open Lexical

/-- The character that a lexical cause is about, as it is given in the cause. -/
def Cause.char? : Cause → Option String
  | .illegalCharacter found _ _ | .unexpectedCharacter found _ => some found
  | _ => none

namespace Scanner

inductive Call where
  | next
  | peek
deriving DecidableEq, Repr

inductive Reply where
  | token (token : Token)
  | fault (diagnostic : Diagnostic)
  | char (char : Option Char)
deriving DecidableEq, Repr

def answer (s : Scanner) : Call → Reply × Scanner
  | .next =>
    match next s with
    | .ok t s' => (.token t, s')
    | .error d s' => (.fault d, s')
  | .peek => (.char s.cursor.peek?, s)

def after (s : Scanner) (calls : List Call) : Scanner :=
  calls.foldl (fun s call => (s.answer call).2) s

def replies : Scanner → List Call → List Reply
  | _, [] => []
  | s, call :: calls => (s.answer call).1 :: replies (s.answer call).2 calls

theorem answer_of_ok {s s' : Scanner} {t : Token} (h : next s = .ok t s') :
    s.answer .next = (.token t, s') := by
  simp only [answer, h]

theorem answer_of_error {s s' : Scanner} {d : Diagnostic} (h : next s = .error d s') :
    s.answer .next = (.fault d, s') := by
  simp only [answer, h]

end Scanner

/-! ## Cursors in a text -/

/-- The characters after the last newline of `before`. -/
def lineSoFar (before : List Char) : List Char :=
  (before.reverse.takeWhile (· ≠ '\n')).reverse

theorem lineSoFar_newline (before : List Char) : lineSoFar (before ++ ['\n']) = [] := by
  simp [lineSoFar]

theorem lineSoFar_concat {x : Char} (h : x ≠ '\n') (before : List Char) :
    lineSoFar (before ++ [x]) = lineSoFar before ++ [x] := by
  simp [lineSoFar, h]

theorem ne_of_mem_lineSoFar {before : List Char} : ∀ c ∈ lineSoFar before, decide (c ≠ '\n') := by
  intro c hc
  have hpass := List.mem_takeWhile_imp (List.mem_reverse.1 hc)
  exact hpass

/-- The cursor stands in `text` after the characters `before`, and all its fields say so. -/
structure Tracks (text before : List Char) (c : Cursor) : Prop where
  text : before ++ c.rest = text
  placed : Placed c before
  lineStart : c.lineStart = lineSoFar before ++ c.rest

theorem tracks_start (text : List Char) : Tracks text [] (.start text) :=
  ⟨rfl, placed_start text, rfl⟩

namespace Tracks

variable {text before : List Char} {c : Cursor}

theorem advance {x : Char} {rest : List Char} (h : Tracks text before c)
    (hrest : c.rest = x :: rest) : Tracks text (before ++ [x]) c.advance := by
  have hafter : c.advance.rest = rest := by rw [Cursor.advance_rest, hrest, List.tail_cons]
  refine ⟨?_, h.placed.advance hrest, ?_⟩
  · rw [hafter, List.append_assoc, ← h.text, hrest]
    rfl
  · rw [hafter]
    by_cases hx : x = '\n'
    · subst hx
      rw [lineSoFar_newline]
      simp only [Cursor.advance, hrest, List.nil_append]
    · have hstart : c.advance.lineStart = c.lineStart := by
        unfold Cursor.advance
        rw [hrest]
        split <;> simp_all
      rw [hstart, h.lineStart, hrest, lineSoFar_concat hx, List.append_assoc]
      rfl

theorem advanceBy {passed rest : List Char} (h : Tracks text before c)
    (hrest : c.rest = passed ++ rest) :
    Tracks text (before ++ passed) (c.advanceBy passed.length) := by
  induction passed generalizing c before with
  | nil => simpa [Cursor.advanceBy] using h
  | cons x passed ih =>
    have hstep := ih (h.advance hrest) (by rw [Cursor.advance_rest, hrest]; rfl)
    rwa [List.append_assoc] at hstep

theorem closed (h : Tracks text before c) (htext : Closed text) : Closed c.rest :=
  (h.text ▸ htext).suffix

end Tracks

/-! ## One call -/

/-- In a text that ends with a newline, the character that fits no token is there: the end of the
text is never complained about. -/
theorem char_of_fault {text : List Char} {before : Nat} {cause : Cause} (hclosed : Closed text)
    (h : readLexeme text = .fault before cause) :
    ∃ c rest, text.drop before = c :: rest ∧ cause.char? = some (String.singleton c) := by
  cases text with
  | nil => cases h
  | cons c text =>
    simp only [readLexeme] at h
    split at h
    · cases h
    split at h
    · -- a string that is not closed: the text has a newline after the quote
      next hquote =>
      have hnewline : '\n' ∈ text := by
        have hlast := List.mem_of_getLast? (hclosed.resolve_left (List.cons_ne_nil c text))
        refine (List.mem_cons.1 hlast).resolve_left ?_
        rw [hquote]
        decide
      unfold Lexeme.readString at h
      simp only at h
      split at h
      · cases h
      · next hend =>
        have hstop := List.dropWhile_eq_nil_iff.1 hend '\n' hnewline
        exact absurd hstop (by decide)
      · next d rest _ hafter =>
        cases h
        exact ⟨d, rest, by rw [List.drop_succ_cons, drop_takeWhile, hafter], rfl⟩
    split at h
    · unfold Lexeme.readNumber at h
      simp only at h
      split at h
      · next rest hafter =>
        split at h
        · cases h
          exact ⟨'.', rest, by rw [drop_takeWhile, hafter], rfl⟩
        · cases h
      · cases h
    split at h
    · cases h
    · unfold Lexeme.readOperator at h
      simp only at h
      split at h
      case h_8 =>
        split at h
        · cases h
        · cases h
          exact ⟨_, text, rfl, rfl⟩
      case h_9 =>
        cases h
        exact ⟨c, text, rfl, rfl⟩
      all_goals cases h

/-- A lexeme that is found is made of the characters at the head of the text. -/
theorem chars_of_found {text : List Char} {kind : Kind} {spelled : String} {length : Nat}
    (h : readLexeme text = .found kind spelled length) :
    ∃ lexeme rest, text = lexeme ++ rest ∧ lexeme.length = length ∧
      (kind ≠ .endOfInput → lexeme ≠ []) := by
  by_cases hnil : text = []
  · subst hnil
    cases h
    exact ⟨[], [], rfl, rfl, fun hmore => absurd rfl hmore⟩
  · obtain ⟨lexeme, rest, hsplit, hlength, hspells, -⟩ := readLexeme_begins h hnil
    exact ⟨lexeme, rest, hsplit, hlength, fun _ => hspells.ne_nil⟩

namespace Scanner

variable {text before : List Char} {s s' : Scanner}

/-- A token that is read moves the scanner on over characters of the text, and over one at least
unless it is the end of the input. -/
theorem tracks_of_ok {t : Token} (h : Tracks text before s.cursor) (hnext : next s = .ok t s') :
    ∃ passed, Tracks text (before ++ passed) s'.cursor ∧ s'.file = s.file ∧
      s.cursor.rest = passed ++ s'.cursor.rest ∧ (t.kind ≠ .endOfInput → passed ≠ []) := by
  obtain ⟨y, hy⟩ := Lexeme.gap_prefix s.cursor.rest
  have hrest := rest_after_gap hy.symm
  unfold next at hnext
  simp only [hrest] at hnext
  split at hnext
  · next kind spelled length hlexeme =>
    cases hnext
    obtain ⟨lexeme, rest, rfl, rfl, hmore⟩ := chars_of_found hlexeme
    have hafter := (h.advanceBy hy.symm).advanceBy hrest
    rw [List.append_assoc] at hafter
    refine ⟨Lexeme.gap s.cursor.rest ++ lexeme, hafter, rfl, ?_, fun hkind hnil => ?_⟩
    · rw [Cursor.advanceBy_rest, hrest, List.drop_left, List.append_assoc, hy]
    · exact hmore hkind (List.append_eq_nil_iff.1 hnil).2
  · cases hnext

/-- A scanner that fails has moved on to the character that it complains about, and shows the line
around it. -/
theorem tracks_of_error {d : Diagnostic} (htext : Closed text) (h : Tracks text before s.cursor)
    (hnext : next s = .error d s') :
    ∃ passed c rest, Tracks text (before ++ passed) s'.cursor ∧ s'.file = s.file ∧
      s.cursor.rest = passed ++ s'.cursor.rest ∧ s'.cursor.rest = c :: rest ∧
      d.cause.char? = some (String.singleton c) ∧
      d.location = some (placeAfter s.file (before ++ passed)) ∧
      d.sourceLine = some (String.ofList
        (lineSoFar (before ++ passed) ++ (c :: rest).takeWhile (· ≠ '\n'))) := by
  obtain ⟨y, hy⟩ := Lexeme.gap_prefix s.cursor.rest
  have hrest := rest_after_gap hy.symm
  have hgap := h.advanceBy hy.symm
  unfold next at hnext
  simp only [hrest] at hnext
  split at hnext
  · cases hnext
  · next length cause hlexeme =>
    cases hnext
    have hclosed : Closed y := by
      rw [← hrest]
      exact hgap.closed htext
    obtain ⟨c, rest, hdrop, hchar⟩ := char_of_fault hclosed hlexeme
    obtain ⟨fitting, rfl, rfl⟩ : ∃ fitting, y = fitting ++ c :: rest ∧ fitting.length = length := by
      refine ⟨y.take length, ?_, ?_⟩
      · rw [← hdrop, List.take_append_drop]
      · have hlt : 0 < (y.drop length).length := by rw [hdrop]; exact Nat.zero_lt_succ _
        rw [List.length_drop] at hlt
        rw [List.length_take]
        omega
    have hafter := hgap.advanceBy hrest
    have hhere : ((s.cursor.advanceBy (Lexeme.gap s.cursor.rest).length).advanceBy
        fitting.length).rest = c :: rest := by
      rw [Cursor.advanceBy_rest, hrest, List.drop_left]
    rw [List.append_assoc] at hafter
    refine ⟨Lexeme.gap s.cursor.rest ++ fitting, c, rest, hafter, rfl, ?_, hhere, hchar, ?_, ?_⟩
    · rw [hhere, List.append_assoc, hy]
    · rw [hafter.placed.location]
    · rw [Cursor.currentLine, hafter.lineStart, hhere,
        List.takeWhile_append_of_pos ne_of_mem_lineSoFar]

/-- A call moves the scanner on in the text, or leaves it where it is. -/
theorem tracks_of_answer (htext : Closed text) (h : Tracks text before s.cursor) (call : Call) :
    ∃ passed, Tracks text (before ++ passed) (s.answer call).2.cursor ∧
      (s.answer call).2.file = s.file := by
  cases call with
  | peek => exact ⟨[], by rwa [List.append_nil], rfl⟩
  | next =>
    cases hnext : next s with
    | ok t s' =>
      obtain ⟨passed, htracks, hfile, -⟩ := tracks_of_ok h hnext
      rw [answer_of_ok hnext]
      exact ⟨passed, htracks, hfile⟩
    | error d s' =>
      obtain ⟨passed, c, rest, htracks, hfile, -⟩ := tracks_of_error htext h hnext
      rw [answer_of_error hnext]
      exact ⟨passed, htracks, hfile⟩

/-! ## Any calls -/

theorem tracks_after (htext : Closed text) (h : Tracks text before s.cursor) (calls : List Call) :
    ∃ passed, Tracks text (before ++ passed) (s.after calls).cursor ∧
      (s.after calls).file = s.file := by
  induction calls generalizing s before with
  | nil => exact ⟨[], by rwa [List.append_nil], rfl⟩
  | cons call calls ih =>
    obtain ⟨passed, hcall, hfile⟩ := tracks_of_answer htext h call
    obtain ⟨more, hcalls, hfile'⟩ := ih hcall
    rw [List.append_assoc] at hcalls
    exact ⟨passed ++ more, hcalls, hfile'.trans hfile⟩

/-- At the end of the text nothing else comes any more, whatever is asked. -/
theorem replies_at_end {t : Token} (h : next s = .ok t s) (hrest : s.cursor.rest = [])
    (calls : List Call) : ∀ reply ∈ s.replies calls, reply = .token t ∨ reply = .char none := by
  induction calls with
  | nil => exact fun _ hreply => nomatch hreply
  | cons call calls ih =>
    cases call with
    | next =>
      rw [replies, answer_of_ok h, List.forall_mem_cons]
      exact ⟨.inl rfl, ih⟩
    | peek =>
      have hnone : s.cursor.peek? = none := by rw [Cursor.peek?, hrest]; rfl
      rw [replies, answer, hnone, List.forall_mem_cons]
      exact ⟨.inr rfl, ih⟩

end Scanner

/-- The line in which a character of a source stands, the newline after the source included. -/
theorem line_of_char {source : String} {before rest : List Char} {c : Char}
    (h : before ++ c :: rest = source.toList ++ ['\n']) :
    (sourceLines source)[before.count '\n']? =
      some (lineSoFar before ++ (c :: rest).takeWhile (· ≠ '\n')) := by
  obtain ⟨ahead, hahead⟩ : ∃ ahead, c :: rest = ahead ++ ['\n'] := by
    have hlast := congrArg List.getLast? h
    rw [List.getLast?_concat, List.getLast?_append_of_ne_nil _ (List.cons_ne_nil c rest)] at hlast
    exact List.getLast?_eq_some_iff.1 hlast
  rw [hahead, ← List.append_assoc] at h
  have hstop : (fun c : Char => decide (c ≠ '\n')) '\n' = false := by decide
  rw [sourceLines, ← (List.append_inj' h rfl).1, getElem_splitOn, hahead, takeWhile_stop hstop]
  rfl

/-- The diagnostic is about the character `c` of the source after the characters `before`: it gives
that character and its place and shows the line of the source that holds it, and `c` stands in that
line at the column of the place, or is the newline right after it. -/
structure Pinpoints (source file : String) (before : List Char) (c : Char) (d : Diagnostic) :
    Prop where
  char : d.cause.char? = some (String.singleton c)
  place : d.location = some (placeAfter file before)
  line : ∃ l, d.sourceLine = some (String.ofList l) ∧
    (sourceLines source)[before.count '\n']? = some l ∧
    if c = '\n' then (placeAfter file before).column = l.length + 1
    else l[(placeAfter file before).column.toNat - 1]? = some c

theorem pinpoints_of_line {source file : String} {before rest : List Char} {c : Char}
    {d : Diagnostic} (htext : before ++ c :: rest = source.toList ++ ['\n'])
    (hchar : d.cause.char? = some (String.singleton c))
    (hplace : d.location = some (placeAfter file before))
    (hline : d.sourceLine =
      some (String.ofList (lineSoFar before ++ (c :: rest).takeWhile (· ≠ '\n')))) :
    Pinpoints source file before c d := by
  refine ⟨hchar, hplace, _, hline, line_of_char htext, ?_⟩
  have hcolumn : (placeAfter file before).column = 1 + ((lineSoFar before).length : Int) := by
    rw [lineSoFar, List.length_reverse]
    rfl
  split
  · next hc =>
    rw [hcolumn, hc, List.takeWhile_cons_of_neg (by decide), List.append_nil, Int.add_comm]
  · next hc =>
    have hindex : (placeAfter file before).column.toNat - 1 = (lineSoFar before).length := by omega
    rw [hindex, List.takeWhile_cons_of_pos (by simpa using hc),
      List.getElem?_append_right le_rfl, Nat.sub_self, List.getElem?_cons_zero]

/-- A scanner after any calls, failed ones among them, stands at some place of the source with the
line and the column of that place. A character that is peeked at is the one after that place. A
token that is read moves the scanner on, by one character at least unless it is the end of the
input, and after that one nothing else comes any more. A scanner that fails moves on to the
character that it complains about; the diagnostic pinpoints that character. -/
theorem Scanner.after_calls_placed (source file : String) (calls : List Call) :
    let s := (start source file).after calls
    ∃ before, before ++ s.cursor.rest = source.toList ++ ['\n'] ∧
      s.cursor.line = 1 + before.count '\n' ∧
      s.cursor.column = 1 + (before.reverse.takeWhile (· ≠ '\n')).length ∧
      s.answer .peek = (.char (source.toList ++ ['\n'])[before.length + 1]?, s) ∧
      (∀ t s', next s = .ok t s' → ∃ passed, s.cursor.rest = passed ++ s'.cursor.rest ∧
        (t.kind ≠ .endOfInput → passed ≠ []) ∧
        (t.kind = .endOfInput → ∀ later, ∀ reply ∈ s'.replies later,
          reply = .token t ∨ reply = .char none)) ∧
      ∀ d s', next s = .error d s' → ∃ passed c rest, s.cursor.rest = passed ++ s'.cursor.rest ∧
        s'.cursor.rest = c :: rest ∧ d.location = some (s'.cursor.location file) ∧
        Pinpoints source file (before ++ passed) c d ∧ d.cause.char? ≠ some "\\0" := by
  intro s
  have htext : Closed (source.toList ++ ['\n']) := closed_source source file
  obtain ⟨before, htracks, hfile⟩ :
      ∃ before, Tracks (source.toList ++ ['\n']) ([] ++ before) s.cursor ∧ s.file = file :=
    tracks_after htext (tracks_start _) calls
  rw [List.nil_append] at htracks
  refine ⟨before, htracks.text, htracks.placed.line, htracks.placed.column, ?_, ?_, ?_⟩
  · have hpeek : s.cursor.peek? = (source.toList ++ ['\n'])[before.length + 1]? := by
      rw [← htracks.text, List.getElem?_append_right (Nat.le_add_right _ 1),
        Nat.add_sub_cancel_left, Cursor.peek?, List.head?_tail]
    rw [answer, hpeek]
  · intro t s' hnext
    obtain ⟨passed, hafter, -, hrest, hmore⟩ := tracks_of_ok htracks hnext
    refine ⟨passed, hrest, hmore, fun hend later => ?_⟩
    have hagain := next_endOfInput hnext hend
    exact replies_at_end hagain (rest_of_endOfInput hagain hend (hafter.closed htext)) later
  · intro d s' hnext
    obtain ⟨passed, c, rest, hafter, hfile', hrest, hhere, hchar, hplace, hline⟩ :=
      tracks_of_error htext htracks hnext
    rw [hfile] at hplace
    have hcharacters := hafter.text
    rw [hhere] at hcharacters
    refine ⟨passed, c, rest, hrest, hhere, ?_, pinpoints_of_line hcharacters hchar hplace hline, ?_⟩
    · rw [hplace, hafter.placed.location]
    · rw [hchar]
      intro hzero
      have hlength := congrArg (fun text : String => text.toList.length) (Option.some.inj hzero)
      rw [String.toList_singleton, List.length_singleton] at hlength
      exact absurd hlength (by decide)

/-- A string that is not closed: the scanner goes on with the newline that it has complained
about. -/
example : (Scanner.start "\"a\n!=" "f").replies [.next, .next, .peek, .next] =
    [.fault ⟨.illegalCharacter "\n" "string literal"
        (some "string literals must be closed on the same line"), some ⟨"f", 1, 3⟩, some "\"a"⟩,
      .token ⟨.newline, "\n", ⟨"f", 1, 3⟩⟩, .char (some '='),
      .token ⟨.operator .notEqual, "!=", ⟨"f", 2, 1⟩⟩] := by
  decide +kernel

end TeenyLang
