import TeenyLang.Proofs.LexicalGrammar
import TeenyLang.Proofs.SourceTokens

set_option autoImplicit false

/-!
# Splits of a source into lexemes

A source is read without a failure exactly if it can be cut into gaps and longest lexemes. The
cut is then unique, and its pieces are the tokens, each at the place where its lexeme begins.
-/
namespace TeenyLang.Lexical

/-- A run of blanks, and after it a comment that reaches up to the newline at the head of
`rest`, or none. -/
def IsGap (gap rest : List Char) : Prop :=
  ∃ blanks comment, gap = blanks ++ comment ∧ (∀ c ∈ blanks, c ∈ [' ', '\t', '\r']) ∧
    (comment = [] ∨
      ∃ remark, comment = '#' :: remark ∧ '\n' ∉ remark ∧ rest.head? = some '\n')

structure Piece where
  gap : List Char
  lexeme : List Char
  kind : Kind
  text : String

def Piece.chars (p : Piece) : List Char :=
  p.gap ++ p.lexeme

inductive IsSplit : List Piece → List Char → Prop
  | nil : IsSplit [] []
  | cons {p : Piece} {pieces : List Piece} {rest : List Char}
      (hgap : IsGap p.gap (p.lexeme ++ rest))
      (hstands : Stands p.kind p.text p.lexeme rest) (hrest : IsSplit pieces rest) :
      IsSplit (p :: pieces) (p.chars ++ rest)

/-- The place after the characters `before` of a source: the line is one more than the newlines
among them, the column one more than the characters after the last newline. -/
def placeAfter (file : String) (before : List Char) : Location where
  file := file
  line := 1 + before.count '\n'
  column := 1 + (before.reverse.takeWhile (· ≠ '\n')).length

def tokensAfter (file : String) (before : List Char) : List Piece → List Token
  | [] => []
  | p :: pieces =>
    ⟨p.kind, p.text, placeAfter file (before ++ p.gap)⟩ ::
      tokensAfter file (before ++ p.chars) pieces

/-! ## Gaps -/

theorem isBlank_iff (c : Char) : Lexeme.isBlank c ↔ c ∈ [' ', '\t', '\r'] := by
  simp [Lexeme.isBlank, or_assoc]

theorem alphanum_ne {c : Char} (h : c.isAlphanum) : c ∉ [' ', '\t', '\r', '#'] := by
  intro hmem
  simp only [List.mem_cons, List.not_mem_nil, or_false] at hmem
  rcases hmem with rfl | rfl | rfl | rfl <;> exact absurd h (by decide)

theorem Spells.head_ne {kind : Kind} {text : String} {lexeme : List Char}
    (h : Spells kind text lexeme) : ∀ c ∈ lexeme.head?, c ∉ [' ', '\t', '\r', '#'] := by
  intro c hc
  cases h with
  | newline => cases hc; decide
  | @operator op _ hop =>
    obtain rfl := mem_operatorTexts.1 hop
    cases op <;> cases hc <;> decide
  | whole hne hdigits =>
    obtain ⟨more, rfl⟩ := List.head?_eq_some_iff.1 hc
    exact alphanum_ne (by simp [Char.isAlphanum, hdigits c (by simp)])
  | decimal hne hwhole hne' hfraction =>
    rw [List.head?_append_of_ne_nil _ hne] at hc
    obtain ⟨more, rfl⟩ := List.head?_eq_some_iff.1 hc
    exact alphanum_ne (by simp [Char.isAlphanum, hwhole c (by simp)])
  | @keyword word _ hword =>
    obtain rfl := mem_reservedTexts.1 hword
    cases word <;> cases hc <;> decide
  | identifier hfirst hmore hfree =>
    cases hc
    exact alphanum_ne (by simp [Char.isAlphanum, hfirst])
  | string hinside => cases hc; decide

theorem Spells.append_head_ne {kind : Kind} {text : String} {lexeme : List Char}
    (h : Spells kind text lexeme) (rest : List Char) :
    ∀ c ∈ (lexeme ++ rest).head?, Lexeme.isBlank c = false ∧ c ≠ '#' := by
  intro c hc
  rw [List.head?_append_of_ne_nil _ h.ne_nil] at hc
  have hne := h.head_ne c hc
  simp only [List.mem_cons, List.not_mem_nil, or_false, not_or] at hne
  exact ⟨by simp [Lexeme.isBlank, hne], hne.2.2.2⟩

theorem comment_of_ne {text : List Char} (h : ∀ c ∈ text.head?, c ≠ '#') :
    Lexeme.comment text = [] := by
  unfold Lexeme.comment
  split
  · exact absurd rfl (h '#' rfl)
  · rfl

theorem gap_of_isGap {gap rest : List Char} (h : IsGap gap rest)
    (hrest : ∀ c ∈ rest.head?, Lexeme.isBlank c = false ∧ c ≠ '#') :
    Lexeme.gap (gap ++ rest) = gap := by
  obtain ⟨blanks, comment, rfl, hblanks, hcomment⟩ := h
  have hrun : ∀ c ∈ blanks, Lexeme.isBlank c := fun c hc => (isBlank_iff c).2 (hblanks c hc)
  rcases hcomment with rfl | ⟨remark, rfl, hremark, hnewline⟩
  · have hstop : ∀ c ∈ rest.head?, Lexeme.isBlank c = false := fun c hc => (hrest c hc).1
    rw [List.append_nil, Lexeme.gap, takeWhile_run hrun hstop, dropWhile_run hrun hstop,
      comment_of_ne fun c hc => (hrest c hc).2, List.append_nil]
  · have hstop : ∀ c ∈ ('#' :: (remark ++ rest)).head?, Lexeme.isBlank c = false := by
      simp [Lexeme.isBlank]
    have hline : ∀ c ∈ '#' :: remark, decide (c ≠ '\n') := by
      simp only [List.forall_mem_cons, ne_eq, decide_not, Bool.not_eq_true',
        decide_eq_false_iff_not]
      exact ⟨by decide, fun c hc h => hremark (h ▸ hc)⟩
    have hend : ∀ c ∈ rest.head?, decide (c ≠ '\n') = false := by
      intro c hc
      rw [hnewline] at hc
      cases hc
      rfl
    rw [List.append_assoc, List.cons_append, Lexeme.gap, takeWhile_run hrun hstop,
      dropWhile_run hrun hstop, Lexeme.comment, ← List.cons_append, takeWhile_run hline hend]

def Closed (text : List Char) : Prop :=
  text = [] ∨ text.getLast? = some '\n'

theorem Closed.suffix {before rest : List Char} (h : Closed (before ++ rest)) : Closed rest := by
  by_cases hrest : rest = []
  · exact .inl hrest
  · right
    rcases h with h | h
    · simp_all
    · rwa [List.getLast?_append_of_ne_nil _ hrest] at h

theorem isGap_gap {text : List Char} (h : Closed text) :
    ∃ rest, text = Lexeme.gap text ++ rest ∧ IsGap (Lexeme.gap text) rest := by
  have hsplit := (List.takeWhile_append_dropWhile (p := Lexeme.isBlank) (l := text)).symm
  have hblanks : ∀ c ∈ text.takeWhile Lexeme.isBlank, c ∈ [' ', '\t', '\r'] :=
    fun c hc => (isBlank_iff c).1 (List.mem_takeWhile_imp hc)
  by_cases hcomment : (text.dropWhile Lexeme.isBlank).head? = some '#'
  · obtain ⟨remark, hremark⟩ := List.head?_eq_some_iff.1 hcomment
    have hline := (List.takeWhile_append_dropWhile (p := (· ≠ '\n')) (l := remark)).symm
    have hgap : Lexeme.gap text =
        text.takeWhile Lexeme.isBlank ++ '#' :: remark.takeWhile (· ≠ '\n') := by
      simp [Lexeme.gap, Lexeme.comment, hremark]
    refine ⟨remark.dropWhile (· ≠ '\n'), ?_, _, _, hgap, hblanks,
      .inr ⟨_, rfl, fun hmem => by simpa using List.mem_takeWhile_imp hmem, ?_⟩⟩
    · rw [hgap, List.append_assoc, List.cons_append, ← hline, ← hremark]
      exact hsplit
    · -- A comment that runs to the end of the text would leave it without its newline.
      have hclosed : Closed ('#' :: remark) := by
        rw [hsplit, hremark] at h
        exact h.suffix
      have hmem : '\n' ∈ remark := by
        rcases hclosed with hnil | hlast
        · cases hnil
        · simpa using List.mem_of_getLast? hlast
      cases hdrop : remark.dropWhile (· ≠ '\n') with
      | nil => simpa using List.dropWhile_eq_nil_iff.1 hdrop _ hmem
      | cons d after =>
        have hd := head_dropWhile remark d (by rw [hdrop]; rfl)
        simpa using hd
  · have hgap : Lexeme.gap text = text.takeWhile Lexeme.isBlank ++ [] := by
      rw [Lexeme.gap, comment_of_ne fun c hc h => hcomment (by rw [hc, h])]
    refine ⟨text.dropWhile Lexeme.isBlank, ?_, _, [], hgap, hblanks, .inl rfl⟩
    rw [hgap, List.append_nil]
    exact hsplit

/-! ## Places -/

structure Placed (c : Cursor) (before : List Char) : Prop where
  line : c.line = 1 + before.count '\n'
  column : c.column = 1 + (before.reverse.takeWhile (· ≠ '\n')).length

theorem placed_start (text : List Char) : Placed (.start text) [] :=
  ⟨rfl, rfl⟩

theorem Placed.location {c : Cursor} {before : List Char} (h : Placed c before) (file : String) :
    c.location file = placeAfter file before := by
  simp [Cursor.location, placeAfter, h.line, h.column]

theorem Placed.advance {c : Cursor} {before rest : List Char} {x : Char} (h : Placed c before)
    (hrest : c.rest = x :: rest) : Placed c.advance (before ++ [x]) := by
  by_cases hx : x = '\n'
  · subst hx
    constructor <;> simp [Cursor.advance, hrest, h.line, Nat.add_assoc]
  · have hadvance : c.advance = ⟨rest, c.line, c.column + 1, c.lineStart⟩ := by
      unfold Cursor.advance
      rw [hrest]
      split <;> simp_all
    rw [hadvance]
    constructor
    · simp [h.line, hx]
    · simp [h.column, hx, Nat.add_assoc]

theorem Placed.advanceBy {c : Cursor} {before passed rest : List Char} (h : Placed c before)
    (hrest : c.rest = passed ++ rest) :
    Placed (c.advanceBy passed.length) (before ++ passed) := by
  induction passed generalizing c before with
  | nil => simpa [Cursor.advanceBy] using h
  | cons x passed ih =>
    have hstep := ih (h.advance hrest) (by rw [Cursor.advance_rest, hrest]; rfl)
    rwa [List.append_assoc] at hstep

/-! ## The tokens of a split -/

theorem Spells.kind_ne {kind : Kind} {text : String} {lexeme : List Char}
    (h : Spells kind text lexeme) : kind ≠ .endOfInput := by
  cases h <;> simp

theorem next_of_piece {s : Scanner} {before rest : List Char} {p : Piece}
    (hplaced : Placed s.cursor before) (htext : s.cursor.rest = p.chars ++ rest)
    (hgap : IsGap p.gap (p.lexeme ++ rest)) (hstands : Stands p.kind p.text p.lexeme rest) :
    ∃ s', Scanner.next s = .ok ⟨p.kind, p.text, placeAfter s.file (before ++ p.gap)⟩ s' ∧
      s'.file = s.file ∧ s'.cursor.rest = rest ∧ Placed s'.cursor (before ++ p.chars) := by
  rw [Piece.chars, List.append_assoc] at htext
  have hskipped : Lexeme.gap s.cursor.rest = p.gap := by
    rw [htext]
    exact gap_of_isGap hgap (hstands.spells.append_head_ne rest)
  have hat := hplaced.advanceBy htext
  have hrest : (s.cursor.advanceBy p.gap.length).rest = p.lexeme ++ rest := by
    simp [htext]
  have hafter := hat.advanceBy hrest
  rw [List.append_assoc] at hafter
  refine ⟨⟨s.file, (s.cursor.advanceBy p.gap.length).advanceBy p.lexeme.length⟩, ?_, rfl, ?_,
    hafter⟩
  · simp only [Scanner.next, hskipped, hrest, readLexeme_of_stands hstands, hat.location]
  · rw [Cursor.advanceBy_rest, hrest]
    exact List.drop_left

theorem next_of_nil {s : Scanner} {before : List Char} (hplaced : Placed s.cursor before)
    (htext : s.cursor.rest = []) :
    Scanner.next s = .ok ⟨.endOfInput, "", placeAfter s.file before⟩ s := by
  simp [Scanner.next, htext, Lexeme.gap, Lexeme.comment, Cursor.advanceBy, readLexeme,
    hplaced.location]

theorem readAll_of_isSplit {pieces : List Piece} {text : List Char} (h : IsSplit pieces text)
    {s : Scanner} {before : List Char} (hplaced : Placed s.cursor before)
    (htext : s.cursor.rest = text) :
    s.readAll.failure = none ∧ s.readAll.tokens = tokensAfter s.file before pieces ++
      [⟨.endOfInput, "", placeAfter s.file (before ++ text)⟩] := by
  induction h generalizing s before with
  | nil =>
    rw [Scanner.readAll_of_ok (next_of_nil hplaced htext)]
    simp [tokensAfter]
  | @cons p pieces rest hgap hstands _ ih =>
    obtain ⟨s', hnext, hfile, hrest, hplaced'⟩ := next_of_piece hplaced htext hgap hstands
    obtain ⟨hfailure, htokens⟩ := ih hplaced' hrest
    rw [Scanner.readAll_of_ok hnext, if_neg hstands.spells.kind_ne]
    refine ⟨hfailure, ?_⟩
    rw [htokens, hfile, tokensAfter, List.cons_append, List.append_assoc]

theorem rest_after_gap {c : Cursor} {rest : List Char} (h : c.rest = Lexeme.gap c.rest ++ rest) :
    (c.advanceBy (Lexeme.gap c.rest).length).rest = rest := by
  rw [Cursor.advanceBy_rest]
  nth_rewrite 2 [h]
  exact List.drop_left

/-- The end of the input comes at the end of a text with a newline at its end, never in a gap. -/
theorem rest_of_endOfInput {s s' : Scanner} {t : Token} (h : Scanner.next s = .ok t s')
    (hend : t.kind = .endOfInput) (hclosed : Closed s.cursor.rest) : s.cursor.rest = [] := by
  obtain ⟨after, hsplit, blanks, comment, hgap, hblanks, hcomment⟩ := isGap_gap hclosed
  have hafter : after = [] := by
    unfold Scanner.next at h
    simp only [rest_after_gap hsplit] at h
    split at h
    · next kind text length hlexeme =>
      cases h
      obtain rfl : kind = .endOfInput := hend
      exact readLexeme_endOfInput hlexeme
    · cases h
  subst hafter
  have hnone : comment = [] := by
    rcases hcomment with hnil | ⟨remark, _, _, hnewline⟩
    · exact hnil
    · cases hnewline
  rw [hgap, hnone, List.append_nil, List.append_nil] at hsplit
  rcases hclosed with hnil | hlast
  · exact hnil
  · have hblank := hblanks '\n' (List.mem_of_getLast? (hsplit ▸ hlast))
    exact absurd hblank (by decide)

theorem IsSplit.spells {pieces : List Piece} {text : List Char} (h : IsSplit pieces text)
    (file : String) (before : List Char) :
    ∀ t ∈ tokensAfter file before pieces, ∃ lexeme, Spells t.kind t.text lexeme := by
  induction h generalizing before with
  | nil => simp [tokensAfter]
  | cons _ hstands _ ih =>
    rw [tokensAfter, List.forall_mem_cons]
    exact ⟨⟨_, hstands.spells⟩, ih _⟩

/-- A scanner that reads a token skips a gap and a lexeme that stands after it. -/
theorem lexeme_of_next {s s' : Scanner} {t : Token} (h : Scanner.next s = .ok t s')
    (hmore : t.kind ≠ .endOfInput) (hclosed : Closed s.cursor.rest) :
    ∃ gap lexeme, s.cursor.rest = gap ++ lexeme ++ s'.cursor.rest ∧
      IsGap gap (lexeme ++ s'.cursor.rest) ∧ Stands t.kind t.text lexeme s'.cursor.rest := by
  obtain ⟨after, hsplit, hgap⟩ := isGap_gap hclosed
  have hrest := rest_after_gap hsplit
  unfold Scanner.next at h
  simp only [hrest] at h
  split at h
  · next kind text length hlexeme =>
    cases h
    obtain ⟨lexeme, rest, rfl, rfl, hstands⟩ :=
      stands_of_readLexeme hlexeme (readLexeme_length_pos hlexeme hmore).2
    rw [Cursor.advanceBy_rest, hrest, List.drop_left]
    exact ⟨_, lexeme, by rwa [List.append_assoc], hgap, hstands⟩
  · cases h

theorem piece_of_next {s s' : Scanner} {t : Token} (h : Scanner.next s = .ok t s')
    (hmore : t.kind ≠ .endOfInput) (hclosed : Closed s.cursor.rest) :
    ∃ (p : Piece) (rest : List Char), s.cursor.rest = p.chars ++ rest ∧
      IsGap p.gap (p.lexeme ++ rest) ∧ Stands p.kind p.text p.lexeme rest ∧
      s'.cursor.rest = rest := by
  obtain ⟨gap, lexeme, htext, hgap, hstands⟩ := lexeme_of_next h hmore hclosed
  exact ⟨⟨gap, lexeme, t.kind, t.text⟩, s'.cursor.rest, htext, hgap, hstands, rfl⟩

theorem exists_isSplit (s : Scanner) (h : s.readAll.failure = none)
    (hclosed : Closed s.cursor.rest) : ∃ pieces, IsSplit pieces s.cursor.rest := by
  -- on the length of the text that is left: every token but the last takes a part of it
  induction s using WellFounded.induction (measure fun s : Scanner => s.cursor.rest.length).wf with
  | _ s ih =>
    cases hnext : Scanner.next s with
    | error d s' =>
      rw [Scanner.readAll_of_error hnext] at h
      cases h
    | ok t s' =>
      rw [Scanner.readAll_of_ok hnext] at h
      by_cases hend : t.kind = .endOfInput
      · rw [rest_of_endOfInput hnext hend hclosed]
        exact ⟨[], .nil⟩
      · obtain ⟨p, rest, htext, hgap, hstands, hrest⟩ := piece_of_next hnext hend hclosed
        simp only [hend, ↓reduceIte] at h
        rw [htext] at hclosed
        obtain ⟨pieces, hpieces⟩ := ih s' (Scanner.next_lt hnext hend) h (hrest ▸ hclosed.suffix)
        rw [htext]
        exact ⟨p :: pieces, .cons hgap hstands (hrest ▸ hpieces)⟩

/-- A text has at most one split: its first gap is what the reader skips, and its first lexeme
is what the reader finds. -/
theorem IsSplit.unique {pieces pieces' : List Piece} {text : List Char}
    (h : IsSplit pieces text) (h' : IsSplit pieces' text) : pieces = pieces' := by
  induction h generalizing pieces' with
  | nil =>
    generalize htext : [] = text at h'
    cases h' with
    | nil => rfl
    | cons _ hstands _ =>
      have hne := hstands.spells.ne_nil
      simp_all [Piece.chars]
  | @cons p pieces rest hgap hstands _ ih =>
    generalize htext : p.chars ++ rest = text at h'
    cases h' with
    | nil =>
      have hne := hstands.spells.ne_nil
      simp_all [Piece.chars]
    | @cons p' pieces' rest' hgap' hstands' hrest' =>
      simp only [Piece.chars, List.append_assoc] at htext
      have hgaps : p.gap = p'.gap := by
        rw [← gap_of_isGap hgap (hstands.spells.append_head_ne rest), htext,
          gap_of_isGap hgap' (hstands'.spells.append_head_ne rest')]
      rw [hgaps, List.append_cancel_left_eq] at htext
      have hfound := readLexeme_of_stands hstands
      rw [htext, readLexeme_of_stands hstands'] at hfound
      simp only [Lexeme.found.injEq] at hfound
      obtain ⟨hkind, hspelled, hlength⟩ := hfound
      obtain ⟨hlexeme, rfl⟩ := List.append_inj htext hlength.symm
      have hp : p = p' := by
        cases p
        cases p'
        simp_all
      rw [hp, ih hrest']

theorem placed_source (source file : String) : Placed (Scanner.start source file).cursor [] :=
  placed_start _

theorem closed_source (source file : String) : Closed (Scanner.start source file).cursor.rest :=
  .inr (by simp [Scanner.start, Cursor.start])

theorem spells_of_readAll {source file : String} {ts : List Token} {last : Token}
    (hfailure : (Scanner.start source file).readAll.failure = none)
    (htokens : (Scanner.start source file).readAll.tokens = ts ++ [last]) :
    ∀ t ∈ ts, ∃ lexeme, Spells t.kind t.text lexeme := by
  obtain ⟨pieces, hsplit⟩ := exists_isSplit _ hfailure (closed_source source file)
  have hread := (readAll_of_isSplit hsplit (placed_source source file) rfl).2
  rw [htokens] at hread
  rw [(List.append_inj' hread rfl).1]
  exact hsplit.spells file []

/-- A source is read without a failure exactly if the source with a newline after it has a split
into gaps and longest lexemes. There is no second split, and the tokens are those of the pieces,
with their kinds, their texts and the places of their lexemes, and then the end of the input in
the first column of the line after the last newline. -/
theorem readAll_iff_isSplit (source file : String) :
    ((Scanner.start source file).readAll.failure = none ↔
      ∃ pieces, IsSplit pieces (source.toList ++ ['\n'])) ∧
    (∀ pieces pieces', IsSplit pieces (source.toList ++ ['\n']) →
      IsSplit pieces' (source.toList ++ ['\n']) → pieces = pieces') ∧
    (∀ pieces, IsSplit pieces (source.toList ++ ['\n']) →
      (Scanner.start source file).readAll.tokens = tokensAfter file [] pieces ++
        [⟨.endOfInput, "", ⟨file, 1 + (source.toList ++ ['\n']).count '\n', 1⟩⟩]) := by
  have hplaced := placed_source source file
  refine ⟨⟨fun h => exists_isSplit _ h (closed_source source file), ?_⟩,
    fun _ _ h h' => h.unique h', ?_⟩
  · rintro ⟨pieces, h⟩
    exact (readAll_of_isSplit h hplaced rfl).1
  · intro pieces h
    have htokens := (readAll_of_isSplit h hplaced rfl).2
    have hplace : placeAfter file (source.toList ++ ['\n']) =
        ⟨file, 1 + (source.toList ++ ['\n']).count '\n', 1⟩ := by
      simp [placeAfter]
    rw [← hplace]
    exact htokens

end TeenyLang.Lexical
