import TeenyLang.Proofs.EmittedExpression
import TeenyLang.Proofs.OutputLines
import TeenyLang.Proofs.Steps

set_option autoImplicit false

/-!
# Parsers after any calls

What holds of a parser on a source after any sequence of calls, whether they have ended well or not:
what is noted down is only added to, the opening part declares the variables once each, and as long
as no pull has failed the two tokens ahead are neighbours among the tokens of the source. Each is
kept by every step, so it is kept by every call.
-/
namespace TeenyLang

open Grammar

/-! ## What is noted down -/

namespace Parser

inductive OpeningLine where
  | heading (heading : Heading)
  | declaration (name : String)

namespace OpeningLine

def text : OpeningLine → String
  | heading h => h.text
  | declaration name => "float " ++ Target.name name ++ ";"

def name? : OpeningLine → Option String
  | heading _ => none
  | declaration name => some name

theorem filter_declarations (ls : List OpeningLine) :
    (ls.map fun l => l.text.toList).filter ("float ".toList.isPrefixOf ·) =
      (ls.filterMap name?).map fun name => (declaration name).text.toList := by
  induction ls with
  | nil => rfl
  | cons l ls ih =>
    rw [List.map_cons]
    cases l with
    | heading h =>
      have hother : ¬ "float ".toList.isPrefixOf (heading h).text.toList = true := by
        cases h <;> decide
      rw [List.filter_cons_of_neg hother, ih]
      rfl
    | declaration name =>
      have hfloat : "float ".toList.isPrefixOf (declaration name).text.toList = true := by
        simp [text]
      rw [List.filter_cons_of_pos hfloat, ih]
      rfl

end OpeningLine

end Parser

namespace Record

/-- `r'` has all that `r` has, in the same order and with the same places, and maybe more after
it. -/
structure Extends (r r' : Record) : Prop where
  opening : r.listing.opening.toList <+: r'.listing.opening.toList
  body : r.listing.body.toList <+: r'.listing.body.toList
  variableNames : r.variableNames <+: r'.variableNames
  labels : r.labels <+: r'.labels
  jumps : r.jumps <+: r'.jumps

/-- The opening part consists of headings and of one declaration for each variable, and no name
stands twice in a table. -/
structure Consistent (r : Record) : Prop where
  opening : ∃ ls : List Parser.OpeningLine,
    r.listing.opening = concatMap line (ls.map Parser.OpeningLine.text) ∧
      ls.filterMap Parser.OpeningLine.name? = r.variableNames
  variableNames : r.variableNames.Nodup
  labels : (r.labels.map Prod.fst).Nodup
  jumps : (r.jumps.map Prod.fst).Nodup

theorem Extends.refl (r : Record) : Extends r r :=
  ⟨List.prefix_rfl, List.prefix_rfl, List.prefix_rfl, List.prefix_rfl, List.prefix_rfl⟩

theorem Extends.trans {r r' r'' : Record} (h : Extends r r') (h' : Extends r' r'') :
    Extends r r'' :=
  ⟨h.opening.trans h'.opening, h.body.trans h'.body, h.variableNames.trans h'.variableNames,
    h.labels.trans h'.labels, h.jumps.trans h'.jumps⟩

/-- The lines of the opening part that begin as a declaration are the declarations of the variables,
in the order of these. -/
theorem Consistent.declarationLines {r : Record} (h : r.Consistent)
    (hnames : ∀ name ∈ r.variableNames, '\n' ∉ name.toList) :
    (C.lines r.listing.opening).filter ("float ".toList.isPrefixOf ·) =
      r.variableNames.map fun name => ("float " ++ Target.name name ++ ";").toList := by
  obtain ⟨ls, hopening, hvariables⟩ := h.opening
  have hclean : ∀ l ∈ ls.map Parser.OpeningLine.text, '\n' ∉ l.toList := by
    rw [List.forall_mem_map]
    intro l hl
    cases l with
    | heading h => cases h <;> decide
    | declaration name =>
      have hname : name ∈ r.variableNames :=
        hvariables ▸ List.mem_filterMap.2 ⟨_, hl, rfl⟩
      simp [Parser.OpeningLine.text, Target.name, hnames name hname]
  rw [hopening, lines_concatMap hclean, List.filter_append, List.map_map, ← hvariables]
  have hlast : [([] : List Char)].filter ("float ".toList.isPrefixOf ·) = [] := by decide
  rw [hlast, List.append_nil]
  exact Parser.OpeningLine.filter_declarations ls

end Record

namespace Parser

variable {σ : Type}

theorem Action.apply_extends (action : Action) (p : Parser σ) :
    p.record.Extends (action.apply p).record := by
  have hsame := Record.Extends.refl p.record
  cases action with
  | note message => exact hsame
  | write text => exact { hsame with body := by simp [record, apply, Target.Listing.code] }
  | head heading =>
    exact { hsame with opening := by simp [record, apply, Target.Listing.declare] }
  | declare name =>
    unfold apply
    dsimp only
    split
    · exact hsame
    · exact { hsame with
        opening := by simp [record, Target.Listing.declare]
        variableNames := List.prefix_append _ _ }
  | label name place =>
    unfold apply
    dsimp only
    split
    · exact hsame
    · exact { hsame with labels := List.prefix_append _ _ }
  | jump name place =>
    unfold apply
    dsimp only
    split
    · exact hsame
    · exact { hsame with jumps := List.prefix_append _ _ }

/-- An opening part with one more line. -/
theorem opening_concat {opening : String} {ls : List OpeningLine}
    (h : opening = concatMap line (ls.map OpeningLine.text)) (l : OpeningLine) :
    opening ++ l.text ++ "\n" = concatMap line ((ls ++ [l]).map OpeningLine.text) := by
  rw [List.map_append, concatMap_append, ← h, List.map_singleton, concatMap_singleton, line,
    String.append_assoc]

theorem nodup_concat {table : List (String × Location)} {name : String} (place : Location)
    (h : (table.map Prod.fst).Nodup) (hnew : table.lookup name = none) :
    ((table ++ [(name, place)]).map Prod.fst).Nodup := by
  have hname := (Record.lookup_eq_none_iff_notMem table name).1 hnew
  rw [List.map_append, List.map_singleton, List.nodup_append_comm]
  exact List.nodup_cons.2 ⟨hname, h⟩

theorem Action.apply_consistent (action : Action) {p : Parser σ} (h : p.record.Consistent) :
    (action.apply p).record.Consistent := by
  obtain ⟨ls, hopening, hnames⟩ := h.opening
  cases action with
  | note message => exact h
  | write text => exact { h with opening := ⟨ls, hopening, hnames⟩ }
  | head heading =>
    have hmore := opening_concat hopening (.heading heading)
    have hsame : (ls ++ [OpeningLine.heading heading]).filterMap OpeningLine.name? =
        p.variableNames := by
      rw [List.filterMap_append, hnames]
      exact List.append_nil _
    exact { h with opening := ⟨_, hmore, hsame⟩ }
  | declare name =>
    unfold apply
    dsimp only
    split
    · exact h
    · next hnew =>
      have hname : name ∉ p.variableNames := by simpa using hnew
      have hmore := opening_concat hopening (.declaration name)
      have hnames' : (ls ++ [OpeningLine.declaration name]).filterMap OpeningLine.name? =
          p.variableNames ++ [name] := by
        rw [List.filterMap_append, hnames]
        rfl
      exact { h with
        opening := ⟨_, hmore, hnames'⟩
        variableNames :=
          List.nodup_append_comm.1 (List.nodup_cons.2 ⟨hname, h.variableNames⟩) }
  | label name place =>
    unfold apply
    dsimp only
    split
    · exact h
    · next hnew => exact { h with labels := nodup_concat place h.labels hnew }
  | jump name place =>
    unfold apply
    dsimp only
    split
    · exact h
    · next hnew => exact { h with jumps := nodup_concat place h.jumps hnew }

variable [TokenSupply σ]

theorem Steps.extends {p q : Parser σ} (h : Steps p q) : p.record.Extends q.record := by
  induction h with
  | refl => exact .refl _
  | tail _ hstep ih =>
    cases hstep with
    | act action => exact ih.trans (action.apply_extends _)
    | pull hpull => exact ih

theorem Steps.consistent {p q : Parser σ} (h : Steps p q) (hp : p.record.Consistent) :
    q.record.Consistent := by
  induction h with
  | refl => exact hp
  | tail _ hstep ih =>
    cases hstep with
    | act action => exact action.apply_consistent ih
    | pull hpull => exact ih

/-! ## Calls -/

theorem reaches_call (call : Call) (p : Parser σ) :
    Reaches (fun _ => True) p ((call.rule : Rule σ Answer) p) := by
  refine (performs_call call p).reaches (fun _ _ => trivial) ?_
  cases call with
  | program => exact apt_programItems
  | _ => simp [Call.items, comparisonItems, termItems, unaryItems]

/-- A call goes by steps to what is noted down at its end, however it ends. -/
theorem perform_record (p : Parser σ) (call : Call) :
    ∃ q, Steps p q ∧ (p.perform call).2.record = q.record := by
  rw [perform_eq_ending]
  have h := reaches_call call p
  generalize (call.rule : Rule σ Answer) p = result at h
  cases h with
  | ok hsteps => exact ⟨_, hsteps, rfl⟩
  | refused hsteps _ => exact ⟨_, hsteps, rfl⟩
  | cut hsteps _ => exact ⟨_, hsteps, rfl⟩

theorem perform_extends (p : Parser σ) (call : Call) :
    p.record.Extends (p.perform call).2.record := by
  obtain ⟨q, hsteps, hrecord⟩ := p.perform_record call
  rw [hrecord]
  exact hsteps.extends

theorem after_consistent {p : Parser σ} (hp : p.record.Consistent) (calls : List Call) :
    (p.after calls).record.Consistent := by
  induction calls generalizing p with
  | nil => exact hp
  | cons call calls ih =>
    obtain ⟨q, hsteps, hrecord⟩ := p.perform_record call
    exact ih (hrecord ▸ hsteps.consistent hp)

end Parser

/-! ## The tokens ahead -/

/-- The token at a place among those that a scanner gives, from 0. After the end of the input it
gives that again at every place. -/
def Scanner.Outcome.token? (read : Outcome) (i : Nat) : Option Token :=
  match read.tokens[i]? with
  | some t => some t
  | none => if read.failure = none then read.tokens.getLast? else none

theorem readLexeme_fault {text : List Char} {before : Nat} {cause : Cause}
    (h : readLexeme text = .fault before cause) : cause.stage = some .lexical := by
  cases text with
  | nil => cases h
  | cons c rest =>
    simp only [readLexeme] at h
    repeat' split at h
    · cases h
    · unfold Lexeme.readString at h
      simp only at h
      split at h <;> cases h <;> rfl
    · unfold Lexeme.readNumber at h
      simp only at h
      repeat' split at h
      all_goals cases h
      rfl
    · cases h
    · unfold Lexeme.readOperator at h
      simp only [Lexeme.ofOperator] at h
      repeat' split at h
      all_goals cases h
      all_goals rfl

namespace Scanner

theorem next_fault {s s' : Scanner} {d : Diagnostic} (h : next s = .error d s') :
    d.cause.stage = some .lexical := by
  unfold next at h
  simp only at h
  split at h
  · cases h
  · next before cause hlexeme =>
    cases h
    exact readLexeme_fault hlexeme

instance : FailsLexically Scanner where
  stage_eq := next_fault

/-- What a parser has passed over and has ahead are the tokens of the scanner, as far as these go,
and from then on the end of the input. -/
theorem readAll_offered {s : Scanner} {a b : Token} {ts : List Token} {l : Lookahead Scanner}
    (h : Passes ⟨s, a, b⟩ (a :: b :: ts) l) :
    (∃ rest, s.readAll.tokens = ts ++ l.current :: l.peek :: rest) ∨
      s.readAll.failure = none ∧ ∃ last n, last.kind = .endOfInput ∧
        s.readAll.tokens.getLast? = some last ∧
        ts ++ [l.current, l.peek] = s.readAll.tokens ++ List.replicate n last := by
  induction ts generalizing s a b with
  | nil =>
    obtain ⟨_, t, s', hnext, h⟩ := Passes.cons_iff.1 h
    obtain ⟨_, u, s'', hnext', h⟩ := Passes.cons_iff.1 h
    cases Passes.nil_iff.1 h
    rw [readAll_of_ok hnext]
    by_cases hend : t.kind = .endOfInput
    · cases (next_endOfInput hnext hend).symm.trans hnext'
      rw [if_pos hend]
      exact .inr ⟨rfl, t, 1, hend, rfl, rfl⟩
    · rw [if_neg hend, readAll_of_ok (s := s') hnext']
      by_cases hend' : u.kind = .endOfInput
      · rw [if_pos hend']
        exact .inl ⟨[], rfl⟩
      · rw [if_neg hend']
        exact .inl ⟨_, rfl⟩
  | cons t ts ih =>
    obtain ⟨_, t', s', hnext, h⟩ := Passes.cons_iff.1 h
    obtain rfl : t' = t := by
      obtain ⟨_, u, s'', _, h⟩ := Passes.cons_iff.1 h
      exact (Passes.cons_iff.1 h).1
    have hlater := ih h
    rw [readAll_of_ok hnext]
    by_cases hend : t'.kind = .endOfInput
    · rw [if_pos hend]
      rw [readAll_of_ok (next_endOfInput hnext hend), if_pos hend] at hlater
      rcases hlater with ⟨rest, hrest⟩ | ⟨_, last, n, hlast, hgetLast, htokens⟩
      · have hlength := congrArg List.length hrest
        simp only [List.length_append, List.length_cons, List.length_nil] at hlength
        omega
      · cases hgetLast
        exact .inr ⟨rfl, t', n + 1, hend, rfl, congrArg (t' :: ·) htokens⟩
    · rw [if_neg hend]
      rcases hlater with ⟨rest, hrest⟩ | ⟨hfailure, last, n, hlast, hgetLast, htokens⟩
      · exact .inl ⟨rest, congrArg (t' :: ·) hrest⟩
      · refine .inr ⟨hfailure, last, n, hlast, ?_, congrArg (t' :: ·) htokens⟩
        rw [List.getLast?_cons, hgetLast]
        rfl

namespace Outcome

theorem token?_of_getElem {read : Outcome} {i : Nat} {t : Token} (h : read.tokens[i]? = some t) :
    read.token? i = some t := by
  simp only [token?, h]

theorem token?_of_padded {read : Outcome} {i n : Nat} {last t : Token} (hread : read.failure = none)
    (hlast : read.tokens.getLast? = some last)
    (h : (read.tokens ++ List.replicate n last)[i]? = some t) : read.token? i = some t := by
  rcases Nat.lt_or_ge i read.tokens.length with hi | hi
  · rw [List.getElem?_append_left hi] at h
    exact token?_of_getElem h
  · rw [List.getElem?_append_right hi, List.getElem?_replicate] at h
    split at h
    · simp only [token?, List.getElem?_eq_none hi, hread, ↓reduceIte, hlast]
      exact h
    · cases h

end Outcome

end Scanner

namespace Parser

def countTokens (ts : List Token) : Nat :=
  ts.countP fun t => t.kind ≠ .endOfInput

/-- The two tokens ahead are neighbours among those of `read`, and the tokens up to the second one
are counted. -/
def Reading (read : Scanner.Outcome) (p : Parser Scanner) : Prop :=
  ∃ i, read.token? i = some p.current ∧ read.token? (i + 1) = some p.peek ∧
    p.count = countTokens (read.tokens.take (i + 2))

/-- The parser has come from the start of the scanner `s` without a failing pull, and has counted
the tokens. -/
def Counted (s : Scanner) (p : Parser Scanner) : Prop :=
  ∃ ts, Passes ⟨s, unread, unread⟩ (unread :: unread :: ts) p.lookahead ∧
    p.count = countTokens (ts ++ [p.current, p.peek])

theorem advance_eq_shifted {σ : Type} [TokenSupply σ] {p p' : Parser σ} {t : Token}
    (h : advance p = .ok t p') :
    ∃ u s, TokenSupply.pull p.supply = .ok u s ∧ p' = p.shifted u s := by
  unfold advance at h
  split at h
  · next u s hpull =>
    cases h
    exact ⟨u, s, hpull, rfl⟩
  · cases h

theorem counted_start {precision : Int} {lines : List String} {s : Scanner} {p : Parser Scanner}
    (h : start precision lines s = .ok p) : Counted s p := by
  rw [start_eq] at h
  split at h
  · next hfill =>
    cases h
    obtain ⟨_, q, hfirst, hsecond⟩ := bind_eq_ok hfill
    obtain ⟨_, hfirst⟩ := discard_eq_ok hfirst
    obtain ⟨_, hsecond⟩ := discard_eq_ok hsecond
    obtain ⟨t, s', hpull, rfl⟩ := advance_eq_shifted hfirst
    obtain ⟨u, s'', hpull', rfl⟩ := advance_eq_shifted hsecond
    refine ⟨[], .cons (l := ⟨s, unread, unread⟩) hpull
      (.cons (l := ⟨s', unread, t⟩) hpull' (.nil _)), ?_⟩
    by_cases ht : t.kind = .endOfInput <;> by_cases hu : u.kind = .endOfInput <;>
      simp [countTokens, shifted, fresh, ht, hu]
  · cases h

theorem Step.counted {s : Scanner} {p q : Parser Scanner} (h : Step p q) (hp : Counted s p) :
    Counted s q := by
  obtain ⟨ts, hpass, hcount⟩ := hp
  cases h with
  | act action =>
    obtain ⟨hahead, hsame, _⟩ := action.apply_keeps p
    have hcurrent : (action.apply p).current = p.current := congrArg Lookahead.current hahead
    have hpeek : (action.apply p).peek = p.peek := congrArg Lookahead.peek hahead
    exact ⟨ts, hahead ▸ hpass, by rw [hsame, hcurrent, hpeek, hcount]⟩
  | @pull _ t supply hpull =>
    refine ⟨ts ++ [p.current], hpass.append (.cons (l := p.lookahead) hpull (.nil _)), ?_⟩
    have hmore : countTokens (ts ++ [p.current] ++ [p.peek, t]) =
        countTokens (ts ++ [p.current, p.peek]) + countTokens [t] := by
      simp [countTokens, List.countP_append, List.countP_cons]
      omega
    change (if t.kind = .endOfInput then p.count else p.count + 1) =
      countTokens (ts ++ [p.current] ++ [p.peek, t])
    rw [hmore, ← hcount]
    by_cases ht : t.kind = .endOfInput <;> simp [countTokens, ht]

theorem Steps.counted {s : Scanner} {p q : Parser Scanner} (h : Steps p q) (hp : Counted s p) :
    Counted s q := by
  induction h with
  | refl => exact hp
  | tail _ hstep ih => exact hstep.counted ih

theorem countTokens_replicate {last : Token} (hlast : last.kind = .endOfInput) (n : Nat) :
    countTokens (List.replicate n last) = 0 := by
  simp [countTokens, List.countP_replicate, hlast]

theorem Counted.reading {s : Scanner} {p : Parser Scanner} (h : Counted s p) :
    Reading s.readAll p := by
  obtain ⟨ts, hpass, hcount⟩ := h
  have hcurrent : (ts ++ [p.current, p.peek])[ts.length]? = some p.current := by simp
  have hpeek : (ts ++ [p.current, p.peek])[ts.length + 1]? = some p.peek := by simp
  refine ⟨ts.length, ?_⟩
  rcases Scanner.readAll_offered hpass with ⟨rest, htokens⟩ | ⟨hread, last, n, hlast, hend, htokens⟩
  · have hsplit : s.readAll.tokens = (ts ++ [p.current, p.peek]) ++ rest := by
      rw [htokens, List.append_assoc]
      rfl
    refine ⟨Scanner.Outcome.token?_of_getElem ?_, Scanner.Outcome.token?_of_getElem ?_, ?_⟩
    · rw [hsplit, List.getElem?_append_left (by simp), hcurrent]
    · rw [hsplit, List.getElem?_append_left (by simp), hpeek]
    · rw [hcount, hsplit, List.take_left' (by simp)]
  · change ts ++ [p.current, p.peek] = _ at htokens
    have hlength := congrArg List.length htokens
    simp only [List.length_append, List.length_cons, List.length_nil, List.length_replicate]
      at hlength
    refine ⟨Scanner.Outcome.token?_of_padded hread hend (htokens ▸ hcurrent),
      Scanner.Outcome.token?_of_padded hread hend (htokens ▸ hpeek), ?_⟩
    rw [hcount, htokens, List.take_of_length_le (by omega)]
    exact List.countP_append.trans (congrArg _ (countTokens_replicate hlast n))

/-! ## Lexical failures -/

def failures {σ : Type} [TokenSupply σ] (p : Parser σ) : List Call → List Diagnostic
  | [] => []
  | call :: calls =>
    match (p.perform call).1 with
    | .ok _ => (p.perform call).2.failures calls
    | .error d => d :: (p.perform call).2.failures calls

theorem perform_counted {s : Scanner} {p : Parser Scanner} (hp : Counted s p) (call : Call)
    (h : ∀ d, (p.perform call).1 = .error d → d.cause.stage ≠ some .lexical) :
    Counted s (p.perform call).2 := by
  rw [perform_eq_ending]
  unfold perform at h
  have hreach := reaches_call call p
  generalize (call.rule : Rule Scanner Answer) p = result at h hreach
  cases hreach with
  | ok hsteps => exact hsteps.counted hp
  | refused hsteps _ => exact hsteps.counted hp
  | cut hsteps hpull => exact absurd (Scanner.next_fault hpull) (h _ rfl)

theorem after_counted {s : Scanner} {p : Parser Scanner} (hp : Counted s p) (calls : List Call)
    (h : ∀ d ∈ p.failures calls, d.cause.stage ≠ some .lexical) : Counted s (p.after calls) := by
  induction calls generalizing p with
  | nil => exact hp
  | cons call calls ih =>
    have hfirst : ∀ d, (p.perform call).1 = .error d → d.cause.stage ≠ some .lexical := by
      intro d hd
      exact h d (by simp [failures, hd])
    refine ih (perform_counted hp call hfirst) fun d hd => h d ?_
    rw [failures]
    cases (p.perform call).1 with
    | ok _ => exact hd
    | error _ => exact List.mem_cons_of_mem _ hd

end Parser

/-- A parser on a source after any sequence of calls, failed ones included. A further call only adds
to what is noted down. The opening part declares the variables once each and in their order, and no
name stands twice in a table. As long as no call has failed in the scanner, the tokens ahead are two
neighbours among the tokens of the source, where the end of the input comes again and again, and the
tokens up to there are counted. -/
theorem callHistory_invariant {source file : String} {precision : Int} {start : Parser Scanner}
    (hstart : Parser.ofSource source file precision = .ok start) (calls : List Parser.Call) :
    (∀ call, (start.after calls).record.Extends ((start.after calls).perform call).2.record) ∧
      (start.after calls).record.Consistent ∧
      ((∀ name ∈ (start.after calls).variableNames, '\n' ∉ name.toList) →
        (C.lines (start.after calls).listing.opening).filter ("float ".toList.isPrefixOf ·) =
          (start.after calls).variableNames.map
            fun name => ("float " ++ Target.name name ++ ";").toList) ∧
      ((∀ d ∈ start.failures calls, d.cause.stage ≠ some .lexical) →
        (start.after calls).Reading (Scanner.start source file).readAll) := by
  have hblank : start.record.Consistent := by
    rw [(Parser.start_eq_ok hstart).2]
    exact ⟨⟨[], rfl, rfl⟩, .nil, .nil, .nil⟩
  have hconsistent := Parser.after_consistent hblank calls
  refine ⟨(start.after calls).perform_extends, hconsistent, hconsistent.declarationLines, ?_⟩
  intro hlexical
  exact (Parser.after_counted (Parser.counted_start hstart) calls hlexical).reading

section Retry

/-- A program that fails in its first line, and a second try at its second line, which fails too. -/
def retryCalls : List Parser.Call :=
  [.program, .declare "c", .advance, .statement]

def retryEnd : Option (List String × List (Option Stage)) :=
  match Parser.ofSource "LET a = 1 +\nLET c = d" "retry" 2 with
  | .error _ => none
  | .ok start =>
    some ((start.after retryCalls).variableNames,
      (start.failures retryCalls).map fun d => d.cause.stage)

theorem callHistory_invariant_retry :
    ∃ start, Parser.ofSource "LET a = 1 +\nLET c = d" "retry" 2 = .ok start ∧
      (C.lines (start.after retryCalls).listing.opening).filter ("float ".toList.isPrefixOf ·) =
        ["float t_a;".toList, "float t_c;".toList] ∧
      (start.after retryCalls).Reading
        (Scanner.start "LET a = 1 +\nLET c = d" "retry").readAll := by
  have hend : retryEnd = some (["a", "c"], [some .syntactic, some .semantic]) := by decide +kernel
  unfold retryEnd at hend
  split at hend
  · cases hend
  next start hstart =>
  simp only [Option.some.injEq, Prod.mk.injEq] at hend
  obtain ⟨hnames, hstages⟩ := hend
  obtain ⟨-, -, hlines, hreading⟩ := callHistory_invariant hstart retryCalls
  refine ⟨start, hstart, ?_, hreading fun d hd hlexical => ?_⟩
  · rw [hlines (by rw [hnames]; decide), hnames]
    decide
  · have hmem := List.mem_map_of_mem (f := fun d : Diagnostic => d.cause.stage) hd
    rw [hstages, hlexical] at hmem
    exact absurd hmem (by decide)

end Retry

end TeenyLang
