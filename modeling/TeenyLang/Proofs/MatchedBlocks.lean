import TeenyLang.Text.Similarity
import Mathlib.Data.Nat.Cast.Order.Field
import Mathlib.Tactic.Linarith
import Mathlib.Tactic.FieldSimp

set_option autoImplicit false

/-!
# What a ratio of similarity is

The ratio of a candidate to a word, said without a scan: the matching block is the first of the
longest blocks found, stretched as far as the characters beside it agree, and the parts on its two
sides are matched in the same way. The relation `IsRatio` holds of one number only, the one that the
scan comes to (`isRatio_iff`).
-/
namespace TeenyLang.Text

/-- At these positions stand equal characters, by which blocks may be found. -/
def Finds (candidate : List Char) (word : List WordChar) (i j : Nat) : Prop :=
  ∃ c, candidate[i]? = some c ∧ word[j]? = some (c, true)

def Agrees (candidate : List Char) (word : List WordChar) (i j : Nat) : Prop :=
  ∃ c indexed, candidate[i]? = some c ∧ word[j]? = some (c, indexed)

namespace Block

def IsRun (block : Block) (agrees : Nat → Nat → Prop) : Prop :=
  ∀ k < block.size, agrees (block.candidateStart + k) (block.wordStart + k)

/-- The block is longer than the other, or as long and does not start later: the start in the
candidate counts first. -/
def Precedes (block other : Block) : Prop :=
  other.size < block.size ∨ other.size = block.size ∧
    (block.candidateStart < other.candidateStart ∨
      block.candidateStart = other.candidateStart ∧ block.wordStart ≤ other.wordStart)

/-- The other block lies within the block, on the same diagonal. -/
def Covers (block other : Block) : Prop :=
  ∃ before after, block.candidateStart + before = other.candidateStart ∧
    block.wordStart + before = other.wordStart ∧ block.size = before + other.size + after

theorem ext_fields {block other : Block} (hcandidate : block.candidateStart = other.candidateStart)
    (hword : block.wordStart = other.wordStart) (hsize : block.size = other.size) :
    block = other := by
  cases block
  cases other
  simp_all

theorem Precedes.antisymm {block other : Block} (h : block.Precedes other)
    (h' : other.Precedes block) : block = other := by
  unfold Precedes at h h'
  apply ext_fields <;> omega

theorem Covers.antisymm {block other : Block} (h : block.Covers other)
    (h' : other.Covers block) : block = other := by
  obtain ⟨_, _, _, _, _⟩ := h
  obtain ⟨_, _, _, _, _⟩ := h'
  apply ext_fields <;> omega

end Block

variable {candidate : List Char} {word : List WordChar}

/-- Of the blocks that can be found it is the longest, and of the longest the first. -/
def FirstLongest (candidate : List Char) (word : List WordChar) (block : Block) : Prop :=
  block.IsRun (Finds candidate word) ∧
    ∀ other : Block, other.IsRun (Finds candidate word) → block.Precedes other

/-- The block stretched over the equal characters beside it, as far as they go. -/
def Stretched (candidate : List Char) (word : List WordChar) (block whole : Block) : Prop :=
  (whole.Covers block ∧ whole.IsRun (Agrees candidate word)) ∧
    ∀ other : Block, other.Covers block → other.IsRun (Agrees candidate word) →
      whole.Covers other

def FirstMatch (candidate : List Char) (word : List WordChar) (whole : Block) : Prop :=
  ∃ block, FirstLongest candidate word block ∧ Stretched candidate word block whole

inductive Matched : List Char → List WordChar → Nat → Prop
  | none {candidate : List Char} {word : List WordChar} {whole : Block}
      (first : FirstMatch candidate word whole) (nothing : whole.size = 0) :
      Matched candidate word 0
  | some {candidate : List Char} {word : List WordChar} {whole : Block} {before after : Nat}
      (first : FirstMatch candidate word whole) (something : whole.size ≠ 0)
      (left : Matched (candidate.take whole.candidateStart) (word.take whole.wordStart) before)
      (right : Matched (candidate.drop (whole.candidateStart + whole.size))
        (word.drop (whole.wordStart + whole.size)) after) :
      Matched candidate word (whole.size + before + after)

/-- The share of the characters of both texts that are matched, which is 1 for two empty texts. -/
def IsRatio (candidate word : String) (ratio : ℚ) : Prop :=
  ∃ matched, Matched candidate.toList (indexedWord word.toList) matched ∧
    ratio = if candidate.length + word.length = 0 then 1
      else (2 * matched : ℚ) / (candidate.length + word.length : ℚ)

theorem FirstMatch.unique {whole other : Block} (h : FirstMatch candidate word whole)
    (h' : FirstMatch candidate word other) : whole = other := by
  obtain ⟨block, hfirst, hstretched⟩ := h
  obtain ⟨_, hfirst', hstretched'⟩ := h'
  cases (hfirst.2 _ hfirst'.1).antisymm (hfirst'.2 _ hfirst.1)
  exact (hstretched.2 _ hstretched'.1.1 hstretched'.1.2).antisymm
    (hstretched'.2 _ hstretched.1.1 hstretched.1.2)

/-! ## Runs of equal characters -/

theorem le_commonRun_iff (as : List Char) (bs : List WordChar) (n : Nat) :
    n ≤ commonRun as bs ↔ ∀ k < n, Finds as bs k k := by
  induction n generalizing as bs with
  | zero => simp
  | succ n ih =>
    match as, bs with
    | [], _ | _ :: _, [] =>
      refine iff_of_false (by simp [commonRun]) fun h => ?_
      simpa [Finds] using h 0 (by omega)
    | a :: as, (b, indexed) :: bs =>
      have hstep : (∀ k < n + 1, Finds (a :: as) ((b, indexed) :: bs) k k) ↔
          (a = b ∧ indexed = true) ∧ ∀ k < n, Finds as bs k k := by
        rw [Nat.forall_lt_succ_left']
        simp [Finds, eq_comm]
      rw [hstep, ← ih, commonRun]
      by_cases hsame : a = b ∧ indexed = true <;> simp [hsame]

theorem finds_drop (i j k : Nat) :
    Finds (candidate.drop i) (word.drop j) k k ↔ Finds candidate word (i + k) (j + k) := by
  simp only [Finds, List.getElem?_drop]

theorem isRun_iff_le_commonRun (i j size : Nat) :
    (Block.mk i j size).IsRun (Finds candidate word) ↔
      size ≤ commonRun (candidate.drop i) (word.drop j) := by
  rw [le_commonRun_iff]
  exact forall₂_congr fun k _ => (finds_drop i j k).symm

theorem commonHead_eq (as bs : List Char) : commonHead as bs = commonRun as (bs.map (·, true)) := by
  induction as generalizing bs with
  | nil => simp [commonHead, commonRun]
  | cons a as ih => cases bs <;> simp [commonHead, commonRun, ih]

theorem le_commonHead_iff (as bs : List Char) (n : Nat) :
    n ≤ commonHead as bs ↔ ∀ k < n, ∃ c, as[k]? = some c ∧ bs[k]? = some c := by
  rw [commonHead_eq, le_commonRun_iff]
  simp [Finds]

theorem agrees_iff (i j : Nat) : Agrees candidate word i j ↔
    ∃ c, candidate[i]? = some c ∧ (word.map Prod.fst)[j]? = some c := by
  simp [Agrees]

theorem le_reachAfter_iff (candidate : List Char) (word : List WordChar) (block : Block) (n : Nat) :
    n ≤ reachAfter candidate word block ↔ ∀ k < n, Agrees candidate word
      (block.candidateStart + block.size + k) (block.wordStart + block.size + k) := by
  rw [reachAfter, le_commonHead_iff]
  simp only [agrees_iff, List.map_drop, List.getElem?_drop]

theorem getElem?_reverse_take {α : Type} (xs : List α) {start : Nat} (h : start ≤ xs.length)
    (k : Nat) : (xs.take start).reverse[k]? = if k < start then xs[start - 1 - k]? else none := by
  have hlength : (xs.take start).length = start := by simp [h]
  split
  · rw [List.getElem?_reverse (by omega), hlength, List.getElem?_take_of_lt (by omega)]
  · exact List.getElem?_eq_none (by rw [List.length_reverse]; omega)

theorem le_reachBefore_iff {block : Block} (hcandidate : block.candidateStart ≤ candidate.length)
    (hword : block.wordStart ≤ word.length) (n : Nat) :
    n ≤ reachBefore candidate word block ↔ ∀ k < n,
      (k < block.candidateStart ∧ k < block.wordStart) ∧
        Agrees candidate word (block.candidateStart - 1 - k) (block.wordStart - 1 - k) := by
  rw [reachBefore, le_commonHead_iff]
  refine forall₂_congr fun k _ => ?_
  rw [List.map_take, getElem?_reverse_take _ hcandidate,
    getElem?_reverse_take _ (by simpa using hword), agrees_iff]
  by_cases hk : k < block.candidateStart <;> by_cases hk' : k < block.wordStart <;> simp [hk, hk']

/-! ## The scan -/

/-- Among the blocks that start before the position `j` of the row `i`, the best one so far is the
first longest. Until something is found it is empty. -/
structure BestBefore (candidate : List Char) (word : List WordChar) (i j : Nat)
    (best : Block) : Prop where
  run : best.IsRun (Finds candidate word)
  start : best = ⟨0, 0, 0⟩ ∨ 0 < best.size ∧
    (best.candidateStart < i ∨ best.candidateStart = i ∧ best.wordStart < j)
  first : ∀ other : Block, other.IsRun (Finds candidate word) → 0 < other.size →
    other.candidateStart < i ∨ other.candidateStart = i ∧ other.wordStart < j →
    best.Precedes other

theorem Block.IsRun.start_lt {block : Block} (h : block.IsRun (Finds candidate word))
    (hsize : 0 < block.size) :
    block.candidateStart < candidate.length ∧ block.wordStart < word.length := by
  obtain ⟨c, hcandidate, hword⟩ := h 0 hsize
  exact ⟨(List.getElem?_eq_some_iff.mp hcandidate).1, (List.getElem?_eq_some_iff.mp hword).1⟩

namespace BestBefore

variable {i j : Nat} {best : Block}

theorem step (h : BestBefore candidate word i j best) :
    BestBefore candidate word i (j + 1)
      (if best.size < commonRun (candidate.drop i) (word.drop j)
        then ⟨i, j, commonRun (candidate.drop i) (word.drop j)⟩ else best) := by
  have hhere : ∀ other : Block, other.IsRun (Finds candidate word) →
      other.candidateStart = i → other.wordStart = j →
      other.size ≤ commonRun (candidate.drop i) (word.drop j) := by
    rintro other hrun rfl rfl
    exact (isRun_iff_le_commonRun _ _ _).mp hrun
  split
  · next hlonger =>
    refine ⟨(isRun_iff_le_commonRun _ _ _).mpr le_rfl, .inr ⟨by simp only; omega, by simp⟩, ?_⟩
    intro other hrun hsize hbefore
    have hsame := hhere other hrun
    have hold := h.first other hrun hsize
    unfold Block.Precedes at hold ⊢
    simp only
    omega
  · next hshorter =>
    refine ⟨h.run, h.start.imp id (And.imp id (by omega)), ?_⟩
    intro other hrun hsize hbefore
    have hsame := hhere other hrun
    have hold := h.first other hrun hsize
    have hstart : best.size = 0 ∨ 0 < best.size ∧ _ := h.start.imp (congrArg Block.size) id
    unfold Block.Precedes at hold ⊢
    omega

theorem row (h : BestBefore candidate word i 0 best) :
    BestBefore candidate word (i + 1) 0 (longestAt (candidate.drop i) i 0 word best) := by
  suffices hrest : ∀ (bs : List WordChar) (j : Nat) (best : Block), word.drop j = bs →
      BestBefore candidate word i j best →
      BestBefore candidate word (i + 1) 0 (longestAt (candidate.drop i) i j bs best) from
    hrest word 0 best rfl h
  intro bs
  induction bs with
  | nil =>
    intro j best hdrop h
    have hlength : word.length ≤ j := List.drop_eq_nil_iff.mp hdrop
    rw [longestAt]
    refine ⟨h.run, h.start.imp id (And.imp id (by omega)), fun other hrun hsize hbefore => ?_⟩
    have hother := (hrun.start_lt hsize).2
    exact h.first other hrun hsize (by omega)
  | cons b bs ih =>
    intro j best hdrop h
    rw [longestAt, ← hdrop]
    refine ih (j + 1) _ ?_ h.step
    rw [List.drop_add_one_eq_tail_drop, hdrop, List.tail_cons]

end BestBefore

theorem firstLongest_longestBlock (candidate : List Char) (word : List WordChar) :
    FirstLongest candidate word (longestBlock candidate word) := by
  suffices hrest : ∀ (as : List Char) (i : Nat) (best : Block), candidate.drop i = as →
      BestBefore candidate word i 0 best →
      FirstLongest candidate word (longestFrom word i as best) from
    hrest candidate 0 ⟨0, 0, 0⟩ rfl
      ⟨fun k hk => absurd hk (by simp), .inl rfl, fun other _ _ hbefore => by omega⟩
  intro as
  induction as with
  | nil =>
    intro i best hdrop h
    have hlength : candidate.length ≤ i := List.drop_eq_nil_iff.mp hdrop
    rw [longestFrom]
    refine ⟨h.run, fun other hrun => ?_⟩
    by_cases hsize : 0 < other.size
    · have hother := (hrun.start_lt hsize).1
      exact h.first other hrun hsize (.inl (by omega))
    · rcases h.start with rfl | ⟨hfound, -⟩
      · exact .inr ⟨by simp only; omega, by simp only; omega⟩
      · exact .inl (by omega)
  | cons a as ih =>
    intro i best hdrop h
    rw [longestFrom, ← hdrop]
    refine ih (i + 1) _ ?_ h.row
    rw [List.drop_add_one_eq_tail_drop, hdrop, List.tail_cons]

/-! ## The stretch -/

theorem agrees_of_finds {i j : Nat} (h : Finds candidate word i j) : Agrees candidate word i j := by
  obtain ⟨c, hcandidate, hword⟩ := h
  exact ⟨c, true, hcandidate, hword⟩

theorem start_longestBlock_le (candidate : List Char) (word : List WordChar) :
    (longestBlock candidate word).candidateStart ≤ candidate.length ∧
      (longestBlock candidate word).wordStart ≤ word.length := by
  obtain ⟨hrun, hfirst⟩ := firstLongest_longestBlock candidate word
  by_cases hsize : 0 < (longestBlock candidate word).size
  · exact (hrun.start_lt hsize).imp le_of_lt le_of_lt
  · -- a block of no characters stands at the start
    have hzero := hfirst ⟨0, 0, 0⟩ fun k hk => absurd hk (by simp)
    simp only [Block.Precedes] at hzero
    omega

theorem reachBefore_le_wordStart {block : Block}
    (hcandidate : block.candidateStart ≤ candidate.length)
    (hword : block.wordStart ≤ word.length) :
    reachBefore candidate word block ≤ block.wordStart := by
  by_contra hlt
  have hk := (le_reachBefore_iff hcandidate hword _).mp le_rfl block.wordStart (by omega)
  omega

theorem stretched_of_isRun {block : Block} (hrun : block.IsRun (Agrees candidate word))
    (hcandidate : block.candidateStart ≤ candidate.length)
    (hword : block.wordStart ≤ word.length) :
    Stretched candidate word block
      ⟨block.candidateStart - reachBefore candidate word block,
        block.wordStart - reachBefore candidate word block,
        reachBefore candidate word block + block.size + reachAfter candidate word block⟩ := by
  have hbefore := le_reachBefore_iff hcandidate hword
  have hafter := le_reachAfter_iff candidate word block
  have hroom := reachBefore_le candidate word block
  have hroom' := reachBefore_le_wordStart hcandidate hword
  generalize reachBefore candidate word block = before at *
  generalize reachAfter candidate word block = after at *
  refine ⟨⟨⟨before, after, by simp only; omega, by simp only; omega, rfl⟩, fun k hk => ?_⟩, ?_⟩
  · simp only at hk ⊢
    -- before the block, in it, or after it
    by_cases hk₁ : k < before
    · have h := ((hbefore before).mp le_rfl (before - 1 - k) (by omega)).2
      convert h using 1 <;> omega
    by_cases hk₂ : k < before + block.size
    · have h := hrun (k - before) (by omega)
      convert h using 1 <;> omega
    · have h := (hafter after).mp le_rfl (k - before - block.size) (by omega)
      convert h using 1 <;> omega
  · rintro other ⟨left, right, hstart, hstart', hsize⟩ hother
    have hleft : left ≤ before := by
      refine (hbefore left).mpr fun k hk => ⟨by omega, ?_⟩
      have h := hother (left - 1 - k) (by omega)
      convert h using 1 <;> omega
    have hright : right ≤ after := by
      refine (hafter right).mpr fun k hk => ?_
      have h := hother (left + block.size + k) (by omega)
      convert h using 1 <;> omega
    exact ⟨before - left, after - right, by simp only; omega, by simp only; omega,
      by simp only; omega⟩

theorem firstMatch_matchingBlock (candidate : List Char) (word : List WordChar) :
    FirstMatch candidate word (matchingBlock candidate word) := by
  have hlongest := firstLongest_longestBlock candidate word
  obtain ⟨hcandidate, hword⟩ := start_longestBlock_le candidate word
  exact ⟨longestBlock candidate word, hlongest,
    stretched_of_isRun (fun k hk => agrees_of_finds (hlongest.1 k hk)) hcandidate hword⟩

theorem matchedChars_eq (candidate : List Char) (word : List WordChar) :
    matchedChars candidate word =
      if (matchingBlock candidate word).size = 0 then 0
      else (matchingBlock candidate word).size
        + matchedChars (candidate.take (matchingBlock candidate word).candidateStart)
          (word.take (matchingBlock candidate word).wordStart)
        + matchedChars
          (candidate.drop ((matchingBlock candidate word).candidateStart +
            (matchingBlock candidate word).size))
          (word.drop ((matchingBlock candidate word).wordStart +
            (matchingBlock candidate word).size)) := by
  rw [matchedChars]

theorem matched_matchedChars (candidate : List Char) (word : List WordChar) :
    Matched candidate word (matchedChars candidate word) := by
  have hfirst := firstMatch_matchingBlock candidate word
  rw [matchedChars_eq]
  split
  · next hnothing => exact .none hfirst hnothing
  · next hsize =>
    have hfits := matchingBlock_le candidate word
    exact .some hfirst hsize (matched_matchedChars _ _) (matched_matchedChars _ _)
termination_by candidate.length
decreasing_by all_goals simp only [List.length_take, List.length_drop]; omega

theorem matched_iff (candidate : List Char) (word : List WordChar) (n : Nat) :
    Matched candidate word n ↔ n = matchedChars candidate word := by
  refine ⟨fun h => ?_, fun h => h ▸ matched_matchedChars candidate word⟩
  induction h with
  | none first nothing =>
    rw [matchedChars_eq, ← first.unique (firstMatch_matchingBlock _ _), if_pos nothing]
  | some first something _ _ ihleft ihright =>
    rw [matchedChars_eq, ← first.unique (firstMatch_matchingBlock _ _), if_neg something,
      ihleft, ihright]

/-! ## The ratio -/

def ratio (candidate word : String) : ℚ :=
  (likeness word candidate).numerator / (likeness word candidate).denominator

theorem isRatio_iff (candidate word : String) (r : ℚ) :
    IsRatio candidate word r ↔ r = ratio candidate word := by
  simp only [IsRatio, matched_iff, exists_eq_left, ratio, likeness]
  split <;> simp

theorem denominator_pos (word candidate : String) : 0 < (likeness word candidate).denominator := by
  simp only [likeness]
  split
  · exact Nat.one_pos
  · next htotal => exact Nat.pos_of_ne_zero htotal

theorem isClose_likeness (word candidate : String) :
    (likeness word candidate).isClose = true ↔ 3 / 5 ≤ ratio candidate word := by
  have hpos : (0 : ℚ) < (likeness word candidate).denominator := by
    exact_mod_cast denominator_pos word candidate
  rw [Likeness.isClose, decide_eq_true_eq, ratio, div_le_div_iff₀ (by norm_num) hpos]
  norm_cast
  rw [Nat.mul_comm _ 5]

@[simp] theorem candidate_likeness (word candidate : String) :
    (likeness word candidate).candidate = candidate := by
  simp only [likeness]
  split <;> rfl

theorem atLeast_likeness (word y z : String) :
    (likeness word y).atLeast (likeness word z) = true ↔
      ratio z word < ratio y word ∨ ratio z word = ratio y word ∧ z ≤ y := by
  have hpos (x : String) : (0 : ℚ) < (likeness word x).denominator := by
    exact_mod_cast denominator_pos word x
  rw [ratio, ratio, div_lt_div_iff₀ (hpos z) (hpos y), div_eq_div_iff (hpos z).ne' (hpos y).ne']
  norm_cast
  simp only [Likeness.atLeast, candidate_likeness, Bool.or_eq_true, Bool.and_eq_true,
    decide_eq_true_eq, beq_iff_eq]
  rw [eq_comm]

end TeenyLang.Text
