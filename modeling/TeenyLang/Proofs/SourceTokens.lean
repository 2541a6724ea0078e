import TeenyLang.Proofs.StatementTree

set_option autoImplicit false

/-!
# Tokens of a source

A scanner that is asked until the end gives the tokens that a parser on it passes over. Once it
has given the end of the input it gives nothing else, so the two tokens of lookahead do no harm
at the end.
-/
namespace TeenyLang

theorem kind_ofWord_ne (text : String) : Kind.ofWord text ≠ .endOfInput := by
  unfold Kind.ofWord
  split <;> simp

theorem readLexeme_endOfInput {text : List Char} {spelled : String} {length : Nat}
    (h : readLexeme text = .found .endOfInput spelled length) : text = [] := by
  cases text with
  | nil => rfl
  | cons c rest =>
    exfalso
    simp only [readLexeme] at h
    repeat' split at h
    · cases h
    · unfold Lexeme.readString at h
      simp only at h
      split at h <;> cases h
    · unfold Lexeme.readNumber at h
      simp only at h
      repeat' split at h
      all_goals cases h
    · unfold Lexeme.readWord at h
      simp only [Lexeme.found.injEq] at h
      exact kind_ofWord_ne _ h.1
    · unfold Lexeme.readOperator at h
      simp only [Lexeme.ofOperator] at h
      repeat' split at h
      all_goals cases h

namespace Scanner

/-- The end of the input comes again at every further call. -/
theorem next_endOfInput {s s' : Scanner} {t : Token} (h : next s = .ok t s')
    (hend : t.kind = .endOfInput) : next s' = .ok t s' := by
  unfold next at h
  simp only at h
  split at h
  · next kind text length hlexeme =>
    cases h
    obtain rfl : kind = .endOfInput := hend
    have hrest := readLexeme_endOfInput hlexeme
    rw [hrest] at hlexeme
    cases hlexeme
    generalize hcursor : s.cursor.advanceBy (Lexeme.gap s.cursor.rest).length = cursor at *
    simp [next, hrest, Lexeme.gap, Lexeme.comment, Cursor.advanceBy, readLexeme]
  · cases h

theorem readAll_of_error {s s' : Scanner} {d : Diagnostic} (h : next s = .error d s') :
    s.readAll = ⟨[], some d, s'⟩ := by
  rw [readAll]
  split
  · next d' s'' hnext =>
    rw [h] at hnext
    cases hnext
    rfl
  · next t s'' hnext =>
    rw [h] at hnext
    cases hnext

theorem readAll_of_ok {s s' : Scanner} {t : Token} (h : next s = .ok t s') :
    s.readAll = if t.kind = .endOfInput then ⟨[t], none, s'⟩
      else ⟨t :: s'.readAll.tokens, s'.readAll.failure, s'.readAll.scanner⟩ := by
  rw [readAll]
  split
  · next d s'' hnext =>
    rw [h] at hnext
    cases hnext
  · next t' s'' hnext =>
    rw [h] at hnext
    cases hnext
    rfl

/-- A scanner that is read to the end without a failure gives tokens other than the end of the
input and then the end of the input, and a parser can pass over them. -/
theorem readAll_passes (s : Scanner) (h : s.readAll.failure = none) :
    ∃ ts last final, s.readAll.tokens = ts ++ [last] ∧ last.kind = .endOfInput ∧
      ∀ a b, Passes ⟨s, a, b⟩ (a :: b :: ts) ⟨final, last, last⟩ := by
  induction s using WellFounded.induction (measure fun s : Scanner => s.cursor.rest.length).wf with
  | _ s ih =>
    cases hnext : next s with
    | error d s' =>
      rw [readAll_of_error hnext] at h
      cases h
    | ok t s' =>
      rw [readAll_of_ok hnext] at h ⊢
      by_cases hend : t.kind = .endOfInput
      · refine ⟨[], t, s', by simp [hend], hend, fun a b => ?_⟩
        exact .cons (l := ⟨s, a, b⟩) hnext
          (.cons (l := ⟨s', b, t⟩) (next_endOfInput hnext hend) (.nil _))
      · simp only [hend, ↓reduceIte] at h ⊢
        obtain ⟨ts, last, final, htokens, hlast, hpass⟩ := ih s' (next_lt hnext hend) h
        refine ⟨t :: ts, last, final, by simp [htokens], hlast, fun a b => ?_⟩
        exact .cons (l := ⟨s, a, b⟩) hnext (hpass b t)

/-- What a parser passes over before the end of the input are the tokens of the scanner. -/
theorem readAll_of_passes {s : Scanner} {a b : Token} {ts : List Token} {l : Lookahead Scanner}
    (h : Passes ⟨s, a, b⟩ (a :: b :: ts) l) (hend : l.current.kind = .endOfInput)
    (hmore : ∀ t ∈ ts, t.kind ≠ .endOfInput) :
    s.readAll.failure = none ∧ s.readAll.tokens = ts ++ [l.current] := by
  induction ts generalizing s a b with
  | nil =>
    obtain ⟨_, t, s', hnext, h⟩ := Passes.cons_iff.1 h
    obtain ⟨_, u, s'', _, h⟩ := Passes.cons_iff.1 h
    cases Passes.nil_iff.1 h
    have hend : t.kind = .endOfInput := hend
    rw [readAll_of_ok hnext, if_pos hend]
    exact ⟨rfl, rfl⟩
  | cons t ts ih =>
    obtain ⟨_, t', s', hnext, h⟩ := Passes.cons_iff.1 h
    obtain rfl : t' = t := by
      obtain ⟨_, u, s'', _, h⟩ := Passes.cons_iff.1 h
      exact (Passes.cons_iff.1 h).1
    obtain ⟨hfailure, htokens⟩ := ih h fun u hu => hmore u (by simp [hu])
    rw [readAll_of_ok hnext, if_neg (hmore t' (by simp))]
    exact ⟨hfailure, by simp [htokens]⟩

end Scanner

namespace Parser

variable {σ : Type} [TokenSupply σ]

def blankRecord (precision : Int) (lines : List String) : Record :=
  ⟨precision, lines, [], [], [], {}⟩

def fresh (precision : Int) (lines : List String) (supply : σ) : Parser σ :=
  { supply := supply, current := unread, peek := unread, count := 0, precision := precision,
    lines := lines, variableNames := [], labels := [], jumps := [], listing := {}, trace := #[] }

theorem start_eq (precision : Int) (lines : List String) (supply : σ) :
    start precision lines supply =
      match (do discard advance; discard advance : Rule σ Unit)
        (fresh precision lines supply) with
      | .ok _ p => .ok p
      | .error d _ => .error d :=
  rfl

theorem start_eq_ok {precision : Int} {lines : List String} {supply : σ} {p : Parser σ}
    (h : start precision lines supply = .ok p) :
    Passes ⟨supply, unread, unread⟩ [unread, unread] p.lookahead ∧
      p.record = blankRecord precision lines := by
  rw [start_eq] at h
  split at h
  · next a q hfill =>
    cases h
    obtain ⟨_, r, hfirst, hsecond⟩ := bind_eq_ok hfill
    obtain ⟨t, hfirst⟩ := discard_eq_ok hfirst
    obtain ⟨u, hsecond⟩ := discard_eq_ok hsecond
    obtain ⟨_, hpass, hrecord⟩ := advance_eq_ok hfirst
    obtain ⟨_, hpass', hrecord'⟩ := advance_eq_ok hsecond
    have hcurrent : r.current = unread := current_of_advance hfirst
    rw [hcurrent] at hpass'
    exact ⟨hpass.append hpass', hrecord'.trans hrecord⟩
  · cases h

theorem start_of_passes (precision : Int) (lines : List String) {supply : σ} {l : Lookahead σ}
    (h : Passes ⟨supply, unread, unread⟩ [unread, unread] l) :
    ∃ p, start precision lines supply = .ok p ∧ p.lookahead = l ∧
      p.record = blankRecord precision lines := by
  obtain ⟨m, hfirst, hsecond⟩ := h.uncons
  obtain ⟨q, hq, rfl, hrecord⟩ := advance_of_passes (p := fresh precision lines supply) hfirst
  obtain ⟨r, hr, hl, hrecord'⟩ := advance_of_passes hsecond
  refine ⟨r, ?_, hl, hrecord'.trans hrecord⟩
  rw [start_eq, bind_of_ok (discard_of_ok hq), discard_of_ok hr]

end Parser

end TeenyLang
