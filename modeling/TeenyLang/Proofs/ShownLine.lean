import TeenyLang.Proofs.CallHistory
import TeenyLang.Proofs.Tokenization
import Mathlib.Data.Bool.AllAny

set_option autoImplicit false

/-!
# The source line of a diagnostic

A parser shows the line of a source at which it stops. It finds the line by its number among the
lines that `Text.splitLines` makes, while the scanner counts newlines only. The two agree as long as
newlines are the only line breaks; a carriage return right before a newline does no harm. From the
first other line break on, the lines that are shown lag behind.
-/
namespace TeenyLang

/-! ## Lines by newlines and lines by all breaks -/

namespace Text

/-- The line without a carriage return at its end. -/
def chomp (l : List Char) : List Char :=
  if l.getLast? = some '\r' then l.dropLast else l

/-- Nothing in the line breaks it, a carriage return at its end aside. -/
def Unbroken (l : List Char) : Prop :=
  ∀ c ∈ chomp l, isLineBreak c = false

instance (l : List Char) : Decidable (Unbroken l) :=
  List.decidableBAll (fun c => isLineBreak c = false) (chomp l)

theorem chomp_append (l : List Char) :
    ∃ ending, (∀ c ∈ ending, c = '\r') ∧ l = chomp l ++ ending := by
  by_cases h : l.getLast? = some '\r'
  · refine ⟨['\r'], by simp, ?_⟩
    rw [chomp, if_pos h]
    exact (List.dropLast_append_getLast? _ h).symm
  · exact ⟨[], by simp, by rw [chomp, if_neg h, List.append_nil]⟩

/-- A prefix that has none of the characters of the end stands before the end. -/
theorem prefix_of_append {x y z : List Char} {k : Nat} (h : x <+: (y ++ z).drop k)
    (hother : ∀ c ∈ x, c ∉ z) : x <+: y.drop k := by
  rw [List.drop_append] at h
  rcases Nat.le_total x.length (y.drop k).length with hle | hle
  · exact List.prefix_of_prefix_length_le h (List.prefix_append _ _) hle
  · obtain ⟨more, rfl⟩ := List.prefix_of_prefix_length_le (List.prefix_append _ _) h hle
    cases more with
    | nil => simp
    | cons c more =>
      have hmore := (List.prefix_append_right_inj _).1 h
      have hc : c ∈ z := List.mem_of_mem_drop (hmore.subset List.mem_cons_self)
      exact absurd hc (hother c (by simp))

/-- The parts into which the breaks in it cut a line that ends with a newline. -/
def parts (l : List Char) : List (List Char) :=
  splitLinesFrom [] (l ++ ['\n'])

theorem splitLinesFrom_nil : splitLinesFrom [] [] = [] :=
  rfl

theorem splitLinesFrom_return (line rest : List Char) :
    splitLinesFrom line ('\r' :: '\n' :: rest) = line.reverse :: splitLinesFrom [] rest :=
  rfl

theorem splitLinesFrom_cons {c : Char} {rest : List Char}
    (h : c = '\r' → rest.head? ≠ some '\n') (line : List Char) :
    splitLinesFrom line (c :: rest) =
      if isLineBreak c then line.reverse :: splitLinesFrom [] rest
      else splitLinesFrom (c :: line) rest := by
  rw [splitLinesFrom]
  rintro rest' rfl rfl
  exact absurd rfl (h rfl)

theorem splitLinesFrom_run {run : List Char} (h : ∀ c ∈ run, isLineBreak c = false)
    (line rest : List Char) :
    splitLinesFrom line (run ++ rest) = splitLinesFrom (run.reverse ++ line) rest := by
  induction run generalizing line with
  | nil => rfl
  | cons c run ih =>
    obtain ⟨hc, hrun⟩ := List.forall_mem_cons.1 h
    have hne : c ≠ '\r' := by
      rintro rfl
      exact absurd hc (by decide)
    rw [List.cons_append, splitLinesFrom_cons (fun hcr => absurd hcr hne), if_neg (by simp [hc]),
      ih hrun]
    simp

theorem splitLinesFrom_break {c : Char} {rest : List Char} (hc : isLineBreak c = true)
    (h : c = '\r' → rest.head? ≠ some '\n') (line : List Char) :
    splitLinesFrom line (c :: rest) = line.reverse :: splitLinesFrom [] rest := by
  rw [splitLinesFrom_cons h, if_pos hc]

/-- A newline ends a line, whatever stands before it. -/
theorem splitLinesFrom_append (line x rest : List Char) :
    splitLinesFrom line (x ++ '\n' :: rest) =
      splitLinesFrom line (x ++ ['\n']) ++ splitLinesFrom [] rest := by
  have hnewline (line rest : List Char) :
      splitLinesFrom line ('\n' :: rest) = line.reverse :: splitLinesFrom [] rest :=
    splitLinesFrom_break (by decide) (fun h => absurd h (by decide)) line
  fun_induction splitLinesFrom line x with
  | case1 | case2 => simp only [List.nil_append, hnewline]; rfl
  | case3 line x ih => exact congrArg (line.reverse :: ·) ih
  | case4 line c x hother hc ih =>
    by_cases hlone : c = '\r' ∧ x = []
    · obtain ⟨rfl, rfl⟩ := hlone
      rfl
    · have hhead (rest : List Char) : c = '\r' → (x ++ '\n' :: rest).head? ≠ some '\n' := by
        intro hcr
        cases x with
        | nil => exact absurd ⟨hcr, rfl⟩ hlone
        | cons d x =>
          rintro ⟨⟩
          exact hother x hcr rfl
      rw [List.cons_append, List.cons_append, splitLinesFrom_break hc (hhead rest),
        splitLinesFrom_break hc (hhead []), ih, List.cons_append]
  | case5 line c x _ hc ih =>
    have hrun : ∀ d ∈ [c], isLineBreak d = false := by simpa using hc
    have hstep (rest : List Char) := splitLinesFrom_run hrun line rest
    exact (hstep _).trans (ih.trans (congrArg (· ++ _) (hstep _).symm))

theorem flatMap_splitOn (text : List Char) :
    (text.splitOn '\n').flatMap (· ++ ['\n']) = text ++ ['\n'] := by
  have hjoin : ∀ ls : List (List Char), ls ≠ [] →
      ['\n'].intercalate ls ++ ['\n'] = ls.flatMap (· ++ ['\n']) := by
    intro ls hls
    induction ls with
    | nil => exact absurd rfl hls
    | cons l ls ih =>
      cases ls with
      | nil => simp [List.intercalate]
      | cons m ls =>
        have hmore := ih (List.cons_ne_nil m ls)
        simp_all [List.intercalate]
  rw [← hjoin _ (List.splitOn_ne_nil _ _), List.intercalate_splitOn]

/-- The lines by all breaks are the parts of the lines by newlines. -/
theorem splitLinesFrom_eq_flatMap (text : List Char) :
    splitLinesFrom [] (text ++ ['\n']) = (text.splitOn '\n').flatMap parts := by
  rw [← flatMap_splitOn]
  induction text.splitOn '\n' with
  | nil => rfl
  | cons l ls ih =>
    rw [List.flatMap_cons, List.flatMap_cons, ← ih, List.append_assoc]
    exact splitLinesFrom_append [] l _

/-! ## The parts of a line -/

def firstPart (l : List Char) : List Char :=
  l.takeWhile fun c => !isLineBreak c

theorem parts_of_run {l : List Char} (h : ∀ c ∈ l, isLineBreak c = false) : parts l = [l] := by
  rw [parts, splitLinesFrom_run h, splitLinesFrom_break (by decide) (fun h => absurd h (by decide))]
  simp [splitLinesFrom_nil]

theorem splitLinesFrom_ne_nil {line text : List Char} (h : line ≠ [] ∨ text ≠ []) :
    splitLinesFrom line text ≠ [] := by
  fun_induction splitLinesFrom line text with
  | case1 line hline => simp_all
  | case2 | case3 | case4 => exact List.cons_ne_nil _ _
  | case5 line c rest _ _ ih => exact ih (.inl (List.cons_ne_nil c line))

theorem parts_ne_nil (l : List Char) : parts l ≠ [] :=
  splitLinesFrom_ne_nil (.inr (by simp))

/-- A line without a newline has one part, the whole line but for a carriage return at its end, or
it is cut at its first break. -/
theorem parts_cases {l : List Char} (hnewline : '\n' ∉ l) :
    Unbroken l ∧ parts l = [chomp l] ∧ firstPart l = chomp l ∨
      ¬ Unbroken l ∧ ∃ rest, parts l = firstPart l :: parts rest := by
  have hsplit := (List.takeWhile_append_dropWhile (p := fun c => !isLineBreak c) (l := l)).symm
  have hrun : ∀ c ∈ firstPart l, isLineBreak c = false := fun c hc => by
    simpa using List.mem_takeWhile_imp hc
  change l = firstPart l ++ _ at hsplit
  cases hdrop : l.dropWhile (fun c => !isLineBreak c) with
  | nil =>
    rw [hdrop, List.append_nil] at hsplit
    have hlast : ¬ l.getLast? = some '\r' := fun h =>
      absurd (hrun _ (hsplit ▸ List.mem_of_getLast? h)) (by decide)
    rw [← hsplit] at hrun
    refine .inl ⟨?_, ?_, ?_⟩
    · rw [Unbroken, chomp, if_neg hlast]
      exact hrun
    · rw [chomp, if_neg hlast]
      exact parts_of_run hrun
    · rw [chomp, if_neg hlast, ← hsplit]
  | cons c rest =>
    have hc : isLineBreak c = true := by
      have hstop := Lexical.head_dropWhile l c (by rw [hdrop]; rfl)
      rwa [Bool.not_eq_false'] at hstop
    rw [hdrop] at hsplit
    by_cases hlone : c = '\r' ∧ rest = []
    · obtain ⟨rfl, rfl⟩ := hlone
      have hchomp : chomp l = firstPart l := by
        rw [hsplit, chomp, List.getLast?_concat, if_pos rfl, List.dropLast_concat, ← hsplit]
      refine .inl ⟨?_, ?_, hchomp.symm⟩
      · rwa [Unbroken, hchomp]
      · rw [hchomp, parts]
        nth_rewrite 1 [hsplit]
        rw [List.append_assoc, splitLinesFrom_run hrun]
        simp [splitLinesFrom_return, splitLinesFrom_nil]
    · have hhead : c = '\r' → (rest ++ ['\n']).head? ≠ some '\n' := by
        intro hcr
        cases rest with
        | nil => exact absurd ⟨hcr, rfl⟩ hlone
        | cons d rest =>
          rintro ⟨⟩
          exact hnewline (hsplit ▸ by simp)
      have hmem : c ∈ chomp l := by
        rw [chomp]
        split
        · next hlast =>
          rcases List.eq_nil_or_concat rest with rfl | ⟨rest, d, rfl⟩
          · rw [hsplit, List.getLast?_concat] at hlast
            exact absurd ⟨Option.some.inj hlast, rfl⟩ hlone
          · rw [hsplit, List.concat_eq_append, ← List.cons_append, ← List.append_assoc,
              List.dropLast_concat]
            simp
        · rw [hsplit]
          simp
      refine .inr ⟨fun h => absurd (h c hmem) (by simp [hc]), rest, ?_⟩
      rw [parts]
      nth_rewrite 1 [hsplit]
      rw [List.append_assoc, List.cons_append, splitLinesFrom_run hrun,
        splitLinesFrom_break hc hhead]
      simp [parts]

theorem unbroken_iff {l : List Char} (hnewline : '\n' ∉ l) :
    Unbroken l ↔ firstPart l = chomp l := by
  rcases parts_cases hnewline with ⟨hl, -, hchomp⟩ | ⟨hl, -⟩
  · exact ⟨fun _ => hchomp, fun _ => hl⟩
  · refine ⟨fun h => absurd h hl, fun hchomp c hc => ?_⟩
    rw [← hchomp] at hc
    simpa using List.mem_takeWhile_imp hc

theorem head_parts {l : List Char} (hnewline : '\n' ∉ l) :
    ∃ more, parts l = firstPart l :: more ∧ (Unbroken l ↔ more = []) := by
  rcases parts_cases hnewline with ⟨hl, hparts, hfirst⟩ | ⟨hl, rest, hparts⟩
  · exact ⟨[], by rw [hparts, hfirst], by simp [hl]⟩
  · refine ⟨parts rest, hparts, by simp [hl, parts_ne_nil]⟩

/-- As long as the lines are unbroken, the parts keep step with them. -/
theorem getElem_flatMap_parts {ls : List (List Char)} (hnewline : ∀ l ∈ ls, '\n' ∉ l) {n : Nat}
    (h : ∀ l ∈ ls.take n, Unbroken l) : (ls.flatMap parts)[n]? = ls[n]?.map firstPart := by
  induction ls generalizing n with
  | nil => rfl
  | cons l ls ih =>
    obtain ⟨hl, hls⟩ := List.forall_mem_cons.1 hnewline
    obtain ⟨more, hparts, hmore⟩ := head_parts hl
    rw [List.flatMap_cons, hparts]
    cases n with
    | zero => rfl
    | succ n =>
      obtain ⟨hunbroken, hbefore⟩ := List.forall_mem_cons.1 h
      rw [hmore.1 hunbroken]
      exact ih hls hbefore

theorem length_le_flatMap_parts (ls : List (List Char)) :
    ls.length ≤ (ls.flatMap parts).length := by
  induction ls with
  | nil => exact le_rfl
  | cons l ls ih =>
    have hpos := List.length_pos_iff.2 (parts_ne_nil l)
    simp only [List.flatMap_cons, List.length_append, List.length_cons]
    omega

theorem length_lt_flatMap_parts {ls : List (List Char)} (hnewline : ∀ l ∈ ls, '\n' ∉ l)
    (h : ∃ l ∈ ls, ¬ Unbroken l) : ls.length < (ls.flatMap parts).length := by
  obtain ⟨l, hl, hbroken⟩ := h
  obtain ⟨before, after, rfl⟩ := List.append_of_mem hl
  obtain ⟨more, hparts, hmore⟩ := head_parts (hnewline l hl)
  have hpos := List.length_pos_iff.2 (fun hnil => hbroken (hmore.2 hnil))
  have hbefore := length_le_flatMap_parts before
  have hafter := length_le_flatMap_parts after
  simp only [List.flatMap_append, List.flatMap_cons, hparts, List.length_append, List.length_cons]
  omega

/-- After a broken line the parts lag behind. -/
theorem mem_parts_of_broken {ls : List (List Char)} (hnewline : ∀ l ∈ ls, '\n' ∉ l) {n : Nat}
    (h : ∃ l ∈ ls.take n, ¬ Unbroken l) {x : List Char} (hx : (ls.flatMap parts)[n]? = some x) :
    ∃ l ∈ ls.take n, x ∈ parts l := by
  rw [← List.mem_flatMap]
  rcases Nat.lt_or_ge n ls.length with hn | hn
  · have hlt := length_lt_flatMap_parts (fun l hl => hnewline l (List.mem_of_mem_take hl)) h
    rw [List.length_take, Nat.min_eq_left hn.le] at hlt
    have hsplit : ls.flatMap parts = (ls.take n).flatMap parts ++ (ls.drop n).flatMap parts := by
      rw [← List.flatMap_append, List.take_append_drop]
    rw [hsplit, List.getElem?_append_left hlt] at hx
    exact List.mem_of_getElem? hx
  · rw [List.take_of_length_le hn]
    exact List.mem_of_getElem? hx

end Text

/-! ## Where a token stands -/

/-- The lines of a source as a scanner counts them. -/
def sourceLines (source : String) : List (List Char) :=
  source.toList.splitOn '\n'

namespace Lexical

theorem length_splitOn (text : List Char) : (text.splitOn '\n').length = text.count '\n' + 1 := by
  induction text with
  | nil => rfl
  | cons c text ih =>
    rw [List.splitOn, List.splitOnP_cons_eq_if_modifyHead]
    rw [List.splitOn] at ih
    by_cases hc : c = '\n'
    · simp [hc, ih]
    · simp [hc, ih]

theorem newline_notMem_splitOn (text : List Char) : ∀ l ∈ text.splitOn '\n', '\n' ∉ l := by
  induction text with
  | nil => simp
  | cons c text ih =>
    rw [List.splitOn, List.splitOnP_cons_eq_if_modifyHead]
    rw [List.splitOn] at ih
    split
    · simpa using ih
    · next hc =>
      cases hsplit : text.splitOnP (· == '\n') with
      | nil => simp
      | cons l ls =>
        rw [hsplit, List.forall_mem_cons] at ih
        rw [List.modifyHead_cons, List.forall_mem_cons]
        refine ⟨?_, ih.2⟩
        rw [List.mem_cons, not_or]
        exact ⟨fun h => hc (beq_iff_eq.2 h.symm), ih.1⟩

theorem head_splitOn (text : List Char) :
    (text.splitOn '\n')[0]? = some (text.takeWhile (· ≠ '\n')) := by
  induction text with
  | nil => rfl
  | cons c text ih =>
    rw [List.splitOn, List.splitOnP_cons_eq_if_modifyHead]
    rw [List.splitOn] at ih
    by_cases hc : c = '\n'
    · simp [hc]
    · simp [hc, ih]

theorem getElem_splitOn (before after : List Char) :
    ((before ++ after).splitOn '\n')[before.count '\n']? =
      some ((before.reverse.takeWhile (· ≠ '\n')).reverse ++ after.takeWhile (· ≠ '\n')) := by
  -- the characters before are cut after their last newline
  generalize hcol : (before.reverse.takeWhile (· ≠ '\n')).reverse = col
  have hclean : ∀ c ∈ col, decide (c ≠ '\n') = true := by
    intro c hc
    rw [← hcol, List.mem_reverse] at hc
    have hpass := List.mem_takeWhile_imp hc
    exact hpass
  have hcount : col.count '\n' = 0 := List.count_eq_zero.2 fun h => by simpa using hclean _ h
  have hbefore : before = (before.reverse.dropWhile (· ≠ '\n')).reverse ++ col := by
    rw [← hcol, ← List.reverse_append, List.takeWhile_append_dropWhile, List.reverse_reverse]
  have hline : ((col ++ after).splitOn '\n')[0]? =
      some (col ++ after.takeWhile (· ≠ '\n')) := by
    rw [head_splitOn, List.takeWhile_append_of_pos hclean]
  cases hdrop : before.reverse.dropWhile (· ≠ '\n') with
  | nil =>
    rw [hdrop] at hbefore
    obtain rfl : before = col := hbefore
    rw [hcount, hline]
  | cons d rest =>
    obtain rfl : d = '\n' := by
      have hstop := head_dropWhile before.reverse d (by rw [hdrop]; rfl)
      simpa using hstop
    rw [hdrop, List.reverse_cons, List.append_assoc] at hbefore
    have hlength : before.count '\n' = (rest.reverse.splitOn '\n').length := by
      rw [length_splitOn, hbefore]
      simp [hcount]
    have hsplit : (before ++ after).splitOn '\n' =
        rest.reverse.splitOn '\n' ++ (col ++ after).splitOn '\n' := by
      rw [hbefore, List.append_assoc]
      exact List.splitOnP_append_cons _ _ rfl
    rw [hsplit, hlength, List.getElem?_append_right le_rfl, Nat.sub_self, hline]

theorem Spells.chars {kind : Kind} {text : String} {lexeme : List Char}
    (h : Spells kind text lexeme) :
    kind = .newline ∧ lexeme = ['\n'] ∨
      kind ≠ .newline ∧ ∀ c ∈ lexeme, c ≠ '\n' ∧ c ≠ '\r' := by
  have hword {c : Char} (hc : c.isAlphanum) : c ≠ '\n' ∧ c ≠ '\r' := by
    constructor <;> rintro rfl <;> exact absurd hc (by decide)
  have hdigit {c : Char} (hc : c.isDigit) : c ≠ '\n' ∧ c ≠ '\r' :=
    hword (by simp [Char.isAlphanum, hc])
  cases h with
  | newline => exact .inl ⟨rfl, rfl⟩
  | @operator op _ hop =>
    obtain rfl := mem_operatorTexts.1 hop
    exact .inr ⟨by simp, List.all_iff_forall_prop.1 (by cases op <;> decide)⟩
  | whole _ hdigits => exact .inr ⟨by simp, fun c hc => hdigit (hdigits c hc)⟩
  | decimal _ hwhole _ hfraction =>
    refine .inr ⟨by simp, List.forall_mem_append.2 ⟨fun c hc => hdigit (hwhole c hc), ?_⟩⟩
    exact List.forall_mem_cons.2 ⟨by decide, fun c hc => hdigit (hfraction c hc)⟩
  | @keyword word _ hword =>
    obtain rfl := mem_reservedTexts.1 hword
    exact .inr ⟨by simp, List.all_iff_forall_prop.1 (by cases word <;> decide)⟩
  | identifier hfirst hmore =>
    refine .inr ⟨by simp, List.forall_mem_cons.2 ⟨?_, fun c hc => hword (hmore c hc)⟩⟩
    exact hword (by simp [Char.isAlphanum, hfirst])
  | string hinside =>
    have hchars : ∀ c ∈ _, c ≠ '\n' ∧ c ≠ '\r' := fun c hc => by
      have hother := hinside c hc
      simp only [List.mem_cons, not_or] at hother
      exact ⟨hother.2.2.1, hother.2.1⟩
    refine .inr ⟨by simp, List.forall_mem_cons.2 ⟨by decide, ?_⟩⟩
    exact List.forall_mem_append.2 ⟨hchars, by simp⟩

/-- A lexeme other than a newline is not touched if a carriage return at the end of its line is
dropped. -/
theorem Spells.prefix_chomp {kind : Kind} {text : String} {lexeme l : List Char} {k : Nat}
    (h : Spells kind text lexeme) (hkind : kind ≠ .newline)
    (hstands : lexeme <+: (l ++ ['\n']).drop k) : lexeme <+: (Text.chomp l).drop k := by
  obtain ⟨-, hchars⟩ := h.chars.resolve_left fun h => hkind h.1
  obtain ⟨ending, hending, hchomp⟩ := Text.chomp_append l
  rw [hchomp, List.append_assoc] at hstands
  refine Text.prefix_of_append hstands fun c hc hmem => ?_
  rcases List.mem_append.1 hmem with hmem | hmem
  · exact (hchars c hc).2 (hending c hmem)
  · exact (hchars c hc).1 (List.mem_singleton.1 hmem)

/-- A token of a source: its lexeme, or nothing for the end of the input, stands after the
characters that its place counts. -/
theorem token_placed {s : Scanner} {before : List Char} (hplaced : Placed s.cursor before)
    (hclosed : Closed s.cursor.rest) {t : Token} (ht : t ∈ s.readAll.tokens) :
    ∃ passed rest, t.location = placeAfter s.file (before ++ passed) ∧
      (s.cursor.rest = passed ++ rest ∧ (t.kind = .endOfInput ∧ rest = [] ∨
        ∃ lexeme, Spells t.kind t.text lexeme ∧ lexeme <+: rest)) := by
  induction s using WellFounded.induction (measure fun s : Scanner => s.cursor.rest.length).wf
    generalizing before with
  | _ s ih =>
    cases hnext : Scanner.next s with
    | error d s' =>
      rw [Scanner.readAll_of_error hnext] at ht
      cases ht
    | ok u s' =>
      rw [Scanner.readAll_of_ok hnext] at ht
      by_cases hend : u.kind = .endOfInput
      · rw [if_pos hend] at ht
        obtain rfl := List.mem_singleton.1 ht
        have hrest := rest_of_endOfInput hnext hend hclosed
        cases hnext.symm.trans (next_of_nil hplaced hrest)
        exact ⟨[], [], by simp, by simpa using hrest, .inl ⟨rfl, rfl⟩⟩
      · rw [if_neg hend] at ht
        obtain ⟨p, rest, htext, hgap, hstands, hrest⟩ := piece_of_next hnext hend hclosed
        obtain ⟨s'', hnext', hfile, -, hplaced'⟩ := next_of_piece hplaced htext hgap hstands
        cases hnext.symm.trans hnext'
        rw [htext] at hclosed ⊢
        rcases List.mem_cons.1 ht with rfl | ht
        · refine ⟨p.gap, p.lexeme ++ rest, rfl, ?_, .inr ⟨p.lexeme, hstands.spells, ?_⟩⟩
          · rw [Piece.chars, List.append_assoc]
          · exact List.prefix_append _ _
        · obtain ⟨passed, after, hplace, hsplit, hcases⟩ :=
            ih s' (Scanner.next_lt hnext hend) hplaced' (hrest ▸ hclosed.suffix) ht
          refine ⟨p.chars ++ passed, after, ?_, ?_, hcases⟩
          · rw [hplace, hfile, List.append_assoc]
          · rw [← hrest, hsplit, List.append_assoc]

/-- The line in which a lexeme stands, and the characters in it from the lexeme on. -/
theorem line_of_lexeme {text before lexeme rest : List Char} {kind : Kind} {spelled : String}
    (h : text ++ ['\n'] = before ++ rest) (hspells : Spells kind spelled lexeme)
    (hlexeme : lexeme <+: rest) :
    ∃ l, (text.splitOn '\n')[before.count '\n']? = some l ∧
      lexeme <+: (l ++ ['\n']).drop (before.reverse.takeWhile (· ≠ '\n')).length := by
  rcases List.eq_nil_or_concat rest with rfl | ⟨after, c, rfl⟩
  · exact absurd (List.prefix_nil.1 hlexeme) hspells.ne_nil
  rw [List.concat_eq_append, ← List.append_assoc] at h
  obtain ⟨rfl, hc⟩ := List.append_inj' h rfl
  cases hc
  refine ⟨_, getElem_splitOn before after, ?_⟩
  rw [List.append_assoc, List.drop_left' List.length_reverse]
  rw [List.concat_eq_append] at hlexeme
  rcases hspells.chars with ⟨-, rfl⟩ | ⟨-, hchars⟩
  · cases after with
    | nil => exact hlexeme
    | cons d after =>
      obtain rfl : '\n' = d := by simpa using hlexeme
      simp
  · obtain ⟨more, hmore⟩ := hlexeme
    have hrun : ∀ c ∈ lexeme, decide (c ≠ '\n') = true := fun c hc => by simp [(hchars c hc).1]
    have hline : (after ++ ['\n']).takeWhile (· ≠ '\n') = after.takeWhile (· ≠ '\n') := by
      rw [List.takeWhile_append]
      split
      · next hlength =>
        have hwhole := List.takeWhile_prefix (· ≠ '\n') (l := after)
        rw [hwhole.eq_of_length hlength]
        simp
      · rfl
    rw [← hline, ← hmore, List.takeWhile_append_of_pos hrun, List.append_assoc]
    exact List.prefix_append _ _

end Lexical

/-! ## The diagnostics of a parser -/

namespace Parser

theorem Steps.lines {σ : Type} [TokenSupply σ] {p q : Parser σ} (h : Steps p q) :
    q.lines = p.lines := by
  induction h with
  | refl => rfl
  | @tail q _ _ hstep ih =>
    cases hstep with
    | act action => exact (action.apply_keeps q).2.2.trans ih
    | pull hpull => exact ih

theorem ofSource_error {source file : String} {precision : Int} {d : Diagnostic}
    (h : ofSource source file precision = .error d) : d.cause.stage = some .lexical := by
  rw [ofSource, start_eq] at h
  split at h
  · cases h
  · next hfill =>
    cases h
    have hpull {p q : Parser Scanner} (h : (discard advance : Rule Scanner Unit) p = .error d q) :
        d.cause.stage = some .lexical := by
      obtain ⟨s, hs⟩ := advance_eq_error (discard_eq_error h)
      exact Scanner.next_fault hs
    rcases bind_eq_error hfill with h | ⟨_, _, _, h⟩
    · exact hpull h
    · exact hpull h

theorem offers_source {source file : String} {precision : Int} {p : Parser Scanner}
    (h : ofSource source file precision = .ok p) {t : Token} (ht : Offers p.lookahead t) :
    t ∈ (Scanner.start source file).readAll.tokens := by
  obtain ⟨ts, m, hpass, rfl⟩ := ht
  have hall := (start_eq_ok h).1.append hpass
  rcases Scanner.readAll_offered hall with ⟨rest, htokens⟩ | ⟨-, last, n, -, hlast, htokens⟩
  · rw [htokens]
    simp
  · have hmem : m.current ∈
        (Scanner.start source file).readAll.tokens ++ List.replicate n last := by
      rw [← htokens]
      simp
    rcases List.mem_append.1 hmem with hmem | hmem
    · exact hmem
    · rw [List.eq_of_mem_replicate hmem]
      exact List.mem_of_getLast? hlast

/-- A diagnostic that shows a line is about a token of the source and shows the line with the number
of that token. -/
theorem fault_of_program {source file : String} {precision : Int} {p q : Parser Scanner}
    (hp : ofSource source file precision = .ok p) {d : Diagnostic} (h : program p = .error d q)
    (hstage : d.cause.stage ≠ some .lexical) {shown : String} (hshown : d.sourceLine = some shown) :
    ∃ t ∈ (Scanner.start source file).readAll.tokens, d.cause.Names t ∧
      d.location = some t.location ∧
      (Text.splitLines (source ++ "\n"))[t.location.line.toNat - 1]? = some shown := by
  have hreach : Reaches (· ∈ (Scanner.start source file).readAll.tokens) p (program p) :=
    (performs_program p).reaches (fun t ht => offers_source hp ht) apt_programItems
  rw [h] at hreach
  cases hreach with
  | cut _ hpull => exact absurd (Scanner.next_fault hpull) hstage
  | refused hsteps hrefusal =>
    cases hrefusal with
    | unclosed | missing => cases hshown
    | @fault t cause ht hnames =>
      have hlines : q.lines = Text.splitLines (source ++ "\n") :=
        hsteps.lines.trans (congrArg Record.lines (start_eq_ok hp).2)
      change q.sourceLine t.location.line = some shown at hshown
      rw [sourceLine, hlines] at hshown
      split at hshown
      · exact ⟨t, ht, hnames, rfl, hshown⟩
      · cases hshown

end Parser

theorem targetText_eq_error {source file : String} {precision : Int} {d : Diagnostic}
    (h : targetText source file precision = .error d) :
    Parser.ofSource source file precision = .error d ∨
      ∃ p q, Parser.ofSource source file precision = .ok p ∧ Parser.program p = .error d q := by
  change (Parser.ofSource source file precision).bind _ = _ at h
  cases hp : Parser.ofSource source file precision with
  | error d' =>
    rw [hp] at h
    cases h
    exact .inl rfl
  | ok p =>
    rw [hp] at h
    cases hq : Parser.program p with
    | ok u q =>
      simp only [Except.bind, hq] at h
      exact nomatch h
    | error d' q =>
      simp only [Except.bind, hq] at h
      cases h
      exact .inr ⟨p, q, rfl, hq⟩

theorem targetText_of_error {source file : String} {precision : Int} {d : Diagnostic}
    (h : Parser.ofSource source file precision = .error d ∨
      ∃ p q, Parser.ofSource source file precision = .ok p ∧ Parser.program p = .error d q) :
    targetText source file precision = .error d := by
  change (Parser.ofSource source file precision).bind _ = _
  rcases h with hp | ⟨p, q, hp, hq⟩
  · rw [hp]
    rfl
  · simp only [hp, Except.bind, hq]
    rfl

/-- The message of a diagnostic at a token that shows a line has a caret under the column. -/
theorem messageLines_of_names {d : Diagnostic} {t : Token} (hnames : d.cause.Names t)
    (hplace : d.location = some t.location) {shown : String} (hshown : d.sourceLine = some shown)
    {k : Nat} (hk : t.location.column = k + 1) :
    ∃ hint, d.messageLines = Diagnostic.headline d.location d.cause.text :: ("    " ++ shown) ::
      (String.ofList (List.replicate (4 + k) ' ') ++ "^") :: hint := by
  obtain ⟨cause, place, line⟩ := d
  cases hplace
  cases hshown
  have hexcerpt : Diagnostic.excerpt t.location shown =
      ["    " ++ shown, String.ofList (List.replicate (4 + k) ' ') ++ "^"] := by
    have hcolumn : 3 + t.location.column.toNat = 4 + k := by omega
    rw [Diagnostic.excerpt, if_pos (by omega), hcolumn]
  cases cause with
  | other | illegalCharacter | unexpectedCharacter | undeclaredLabels => exact hnames.elim
  | _ =>
    simp only [Diagnostic.messageLines, hexcerpt]
    exact ⟨_, rfl⟩

theorem getElem_splitLines {source shown : String} {n : Nat}
    (h : (Text.splitLines (source ++ "\n"))[n]? = some shown) :
    ((sourceLines source).flatMap Text.parts)[n]? = some shown.toList := by
  have htext : (source ++ "\n").toList = source.toList ++ ['\n'] := by simp
  rw [Text.splitLines, htext, Text.splitLinesFrom_eq_flatMap, List.getElem?_map,
    Option.map_eq_some_iff] at h
  obtain ⟨part, hpart, rfl⟩ := h
  rw [String.toList_ofList]
  exact hpart

/-- The line that a diagnostic of the parser shows. It is about a token of the source and has a
caret under the column of the token. As long as the lines before are unbroken it shows the line in
which the token stands, up to the first break there, so the whole line exactly if this is unbroken;
and then the token stands over the caret. After a broken line it shows a part of an earlier line. -/
theorem targetText_shownLine {source file : String} {precision : Int} {d : Diagnostic}
    {shown : String} (h : targetText source file precision = .error d)
    (hstage : d.cause.stage ≠ some .lexical) (hshown : d.sourceLine = some shown) :
    ∃ t ∈ (Scanner.start source file).readAll.tokens, ∃ n k : Nat,
      d.cause.Names t ∧ d.location = some ⟨file, n + 1, k + 1⟩ ∧ t.location = ⟨file, n + 1, k + 1⟩ ∧
      (∃ hint, d.messageLines = Diagnostic.headline d.location d.cause.text :: ("    " ++ shown) ::
        (String.ofList (List.replicate (4 + k) ' ') ++ "^") :: hint) ∧
      ((∀ l ∈ (sourceLines source).take n, Text.Unbroken l) →
        ∃ l lexeme, (sourceLines source)[n]? = some l ∧ Lexical.Spells t.kind t.text lexeme ∧
          lexeme <+: (l ++ ['\n']).drop k ∧ shown.toList = Text.firstPart l ∧
          (Text.Unbroken l ↔ shown.toList = Text.chomp l) ∧
          (Text.Unbroken l → t.kind ≠ .newline → lexeme <+: shown.toList.drop k)) ∧
      ((∃ l ∈ (sourceLines source).take n, ¬ Text.Unbroken l) →
        ∃ l ∈ (sourceLines source).take n, shown ∈ Text.splitLines (String.ofList l ++ "\n")) := by
  rcases targetText_eq_error h with hp | ⟨p, q, hp, hq⟩
  · exact absurd (Parser.ofSource_error hp) hstage
  obtain ⟨t, ht, hnames, hplace, hline⟩ := Parser.fault_of_program hp hq hstage hshown
  obtain ⟨passed, rest, hlocation, htext, hcases⟩ := Lexical.token_placed
    (Lexical.placed_source source file) (Lexical.closed_source source file) ht
  generalize hn : passed.count '\n' = n
  generalize hk : (passed.reverse.takeWhile (· ≠ '\n')).length = k
  have hat : t.location = ⟨file, n + 1, k + 1⟩ := by
    rw [hlocation, ← hn, ← hk]
    simp [Lexical.placeAfter, Int.add_comm, Scanner.start]
  have hparts : ((sourceLines source).flatMap Text.parts)[n]? = some shown.toList := by
    refine getElem_splitLines ?_
    rw [hat] at hline
    simpa using hline
  have hnewline : ∀ l ∈ sourceLines source, '\n' ∉ l :=
    Lexical.newline_notMem_splitOn source.toList
  have hcaret := messageLines_of_names hnames hplace hshown (k := k) (by rw [hat])
  refine ⟨t, ht, n, k, hnames, by rw [hplace, hat], hat, hcaret, fun hunbroken => ?_,
    fun hbroken => ?_⟩
  · rw [Text.getElem_flatMap_parts hnewline hunbroken, Option.map_eq_some_iff] at hparts
    obtain ⟨l, hl, hfirst⟩ := hparts
    have htext : source.toList ++ ['\n'] = passed ++ rest := htext
    rcases hcases with ⟨-, rfl⟩ | ⟨lexeme, hspells, hlexeme⟩
    · -- the end of the input stands after the last line
      have hlength : (sourceLines source).length = n := by
        rw [List.append_nil] at htext
        rw [sourceLines, Lexical.length_splitOn, ← hn, ← htext]
        simp
      rw [List.getElem?_eq_none hlength.le] at hl
      cases hl
    · obtain ⟨l', hl', hstands⟩ := Lexical.line_of_lexeme htext hspells hlexeme
      rw [hn] at hl'
      rw [hk] at hstands
      obtain rfl : l' = l := Option.some.inj (hl'.symm.trans hl)
      have hwhole := Text.unbroken_iff (hnewline l' (List.mem_of_getElem? hl))
      rw [hfirst] at hwhole
      refine ⟨l', lexeme, hl, hspells, hstands, hfirst.symm, hwhole, fun hl hkind => ?_⟩
      rw [hwhole.1 hl]
      exact hspells.prefix_chomp hkind hstands
  · obtain ⟨l, hl, hpart⟩ := Text.mem_parts_of_broken hnewline hbroken hparts
    refine ⟨l, hl, ?_⟩
    rw [Text.splitLines, String.toList_append, String.toList_ofList]
    exact List.mem_map.2 ⟨_, hpart, String.ofList_toList⟩

/-- A form feed in a comment: the line that is shown is the end of the comment, not the line with
the variable. -/
theorem formFeed_shows_comment :
    targetText "# page\x0cbreak\nPRINT x\n" "<input>" 2 =
        .error ⟨.undeclaredVariable "x" [], some ⟨"<input>", 2, 7⟩, some "break"⟩ ∧
      (sourceLines "# page\x0cbreak\nPRINT x\n")[1]? = some "PRINT x".toList := by
  constructor
  · decide +kernel
  · decide +kernel

section TwoLines

def twoLines : String :=
  "INPUT a\r\nPRINT  b # two\x0cthree"

theorem targetText_shownLine_twoLines :
    targetText twoLines "two" 2 =
        .error ⟨.undeclaredVariable "b" [], some ⟨"two", 2, 8⟩, some "PRINT  b # two"⟩ ∧
      ∃ t ∈ (Scanner.start twoLines "two").readAll.tokens, ∃ lexeme,
        Lexical.Spells t.kind t.text lexeme ∧
          lexeme <+: "b # two\x0cthree\n".toList ∧
          "PRINT  b # two".toList = Text.firstPart "PRINT  b # two\x0cthree".toList := by
  have htext : targetText twoLines "two" 2 =
      .error ⟨.undeclaredVariable "b" [], some ⟨"two", 2, 8⟩, some "PRINT  b # two"⟩ := by
    decide +kernel
  obtain ⟨t, ht, n, k, -, hplace, -, -, hshows, -⟩ := targetText_shownLine htext nofun rfl
  obtain ⟨rfl, rfl⟩ : n = 1 ∧ k = 7 := by
    simp only [Option.some.injEq, Location.mk.injEq] at hplace
    omega
  obtain ⟨l, lexeme, hl, hspells, hstands, hfirst, -, -⟩ := hshows (by decide +kernel)
  have hline : (sourceLines twoLines)[1]? = some "PRINT  b # two\x0cthree".toList := by
    decide +kernel
  obtain rfl := Option.some.inj (hl.symm.trans hline)
  exact ⟨htext, t, ht, lexeme, hspells, hstands, hfirst⟩

end TwoLines

end TeenyLang
