set_option autoImplicit false

/-!
# Similar words

The likeness of a candidate to a word is `2 * m / t`, where `t` is the number of characters
of both and `m` the number of characters in matching blocks: the longest common block is
taken first, then the parts before it and the parts after it are matched in the same way.
Of several longest blocks the one that starts first in the candidate is taken, then the one
that starts first in the word. In a word of 200 characters or more a character that is
very common does not start or continue a longest block, but a block found without it is
extended over it on both sides.

Ratios are compared by cross-multiplication in the natural numbers.
-/
namespace TeenyLang.Text

/-- A block of equal characters: where it starts in the candidate and in the word, and its
size. -/
structure Block where
  candidateStart : Nat
  wordStart : Nat
  size : Nat
deriving DecidableEq, Repr

/-- A character of the word, and whether blocks may be found by it. -/
abbrev WordChar := Char × Bool

/-- The number of equal characters at the two heads that blocks may be found by. -/
def commonRun : List Char → List WordChar → Nat
  | a :: as, (b, indexed) :: bs => if a = b && indexed then commonRun as bs + 1 else 0
  | _, _ => 0

def commonHead : List Char → List Char → Nat
  | a :: as, b :: bs => if a = b then commonHead as bs + 1 else 0
  | _, _ => 0

theorem commonRun_le (as : List Char) (bs : List WordChar) : commonRun as bs ≤ as.length := by
  induction as generalizing bs with
  | nil => simp [commonRun]
  | cons a as ih =>
    match bs with
    | [] => simp [commonRun]
    | (b, indexed) :: bs =>
      have := ih bs
      simp only [commonRun, List.length_cons]
      split <;> omega

theorem commonHead_le (as bs : List Char) : commonHead as bs ≤ as.length := by
  induction as generalizing bs with
  | nil => simp [commonHead]
  | cons a as ih =>
    match bs with
    | [] => simp [commonHead]
    | b :: bs =>
      have := ih bs
      simp only [commonHead, List.length_cons]
      split <;> omega

/-- The first longest block among `best` and those that start at the head of `as`, the
position `i` of the candidate, and at the position `j` of the word or later. -/
def longestAt (as : List Char) (i : Nat) : Nat → List WordChar → Block → Block
  | _, [], best => best
  | j, b :: bs, best =>
    let size := commonRun as (b :: bs)
    longestAt as i (j + 1) bs (if best.size < size then ⟨i, j, size⟩ else best)

def longestFrom (word : List WordChar) : Nat → List Char → Block → Block
  | _, [], best => best
  | i, a :: as, best => longestFrom word (i + 1) as (longestAt (a :: as) i 0 word best)

def longestBlock (candidate : List Char) (word : List WordChar) : Block :=
  longestFrom word 0 candidate ⟨0, 0, 0⟩

theorem longestAt_le (as : List Char) (i j total : Nat) (bs : List WordChar) (best : Block)
    (room : i + as.length ≤ total) (fits : best.candidateStart + best.size ≤ total) :
    (longestAt as i j bs best).candidateStart + (longestAt as i j bs best).size ≤ total := by
  induction bs generalizing j best with
  | nil => exact fits
  | cons b bs ih =>
    refine ih _ _ ?_
    have := commonRun_le as (b :: bs)
    split
    · simp only
      omega
    · exact fits

theorem longestFrom_le (word : List WordChar) (i total : Nat) (as : List Char) (best : Block)
    (room : i + as.length ≤ total) (fits : best.candidateStart + best.size ≤ total) :
    (longestFrom word i as best).candidateStart + (longestFrom word i as best).size ≤ total := by
  induction as generalizing i best with
  | nil => exact fits
  | cons a as ih =>
    refine ih _ _ ?_ ?_
    · simp only [List.length_cons] at room
      omega
    · exact longestAt_le _ _ _ _ _ _ room fits

theorem longestBlock_le (candidate : List Char) (word : List WordChar) :
    (longestBlock candidate word).candidateStart + (longestBlock candidate word).size ≤
      candidate.length :=
  longestFrom_le word 0 candidate.length candidate ⟨0, 0, 0⟩ (by omega) (by simp)

def reachBefore (candidate : List Char) (word : List WordChar) (block : Block) : Nat :=
  commonHead (candidate.take block.candidateStart).reverse
    ((word.take block.wordStart).map Prod.fst).reverse

def reachAfter (candidate : List Char) (word : List WordChar) (block : Block) : Nat :=
  commonHead (candidate.drop (block.candidateStart + block.size))
    ((word.drop (block.wordStart + block.size)).map Prod.fst)

/-- The first longest block, extended on both sides over equal characters of any kind. -/
def matchingBlock (candidate : List Char) (word : List WordChar) : Block :=
  let block := longestBlock candidate word
  let before := reachBefore candidate word block
  let after := reachAfter candidate word block
  ⟨block.candidateStart - before, block.wordStart - before, before + block.size + after⟩

theorem reachBefore_le (candidate : List Char) (word : List WordChar) (block : Block) :
    reachBefore candidate word block ≤ block.candidateStart := by
  have := commonHead_le (candidate.take block.candidateStart).reverse
    ((word.take block.wordStart).map Prod.fst).reverse
  simp only [List.length_reverse, List.length_take] at this
  unfold reachBefore
  omega

theorem reachAfter_le (candidate : List Char) (word : List WordChar) (block : Block) :
    reachAfter candidate word block ≤
      candidate.length - (block.candidateStart + block.size) := by
  unfold reachAfter
  rw [← List.length_drop]
  exact commonHead_le _ _

theorem matchingBlock_le (candidate : List Char) (word : List WordChar) :
    (matchingBlock candidate word).candidateStart + (matchingBlock candidate word).size ≤
      candidate.length := by
  have := longestBlock_le candidate word
  have := reachBefore_le candidate word (longestBlock candidate word)
  have := reachAfter_le candidate word (longestBlock candidate word)
  simp only [matchingBlock]
  omega

def matchedChars (candidate : List Char) (word : List WordChar) : Nat :=
  match _found : matchingBlock candidate word with
  | ⟨start, wordStart, size⟩ =>
    if size = 0 then 0
    else
      size + matchedChars (candidate.take start) (word.take wordStart)
        + matchedChars (candidate.drop (start + size)) (word.drop (wordStart + size))
termination_by candidate.length
decreasing_by
  all_goals
    have fits := matchingBlock_le candidate word
    rw [_found] at fits
    simp only [List.length_take, List.length_drop] at fits ⊢
    omega

/-- The characters of a word, each with whether blocks may be found by it: in a word of at
least 200 characters one that occurs more than once in a hundred, plus one, is left out. -/
def indexedWord (word : List Char) : List WordChar :=
  word.map fun c => (c, word.length < 200 || word.count c ≤ word.length / 100 + 1)

structure Likeness where
  candidate : String
  numerator : Nat
  denominator : Nat
deriving DecidableEq, Repr

def likeness (word candidate : String) : Likeness :=
  let total := candidate.length + word.length
  if total = 0 then ⟨candidate, 1, 1⟩
  else ⟨candidate, 2 * matchedChars candidate.toList (indexedWord word.toList), total⟩

/-- Whether the likeness is at least three fifths. -/
def Likeness.isClose (x : Likeness) : Bool :=
  3 * x.denominator ≤ 5 * x.numerator

/-- Whether `x` is at least as alike as `y`; of two alike in the same degree the one with
the later name goes first. -/
def Likeness.atLeast (x y : Likeness) : Bool :=
  let left := x.numerator * y.denominator
  let right := y.numerator * x.denominator
  right < left || (left == right && y.candidate ≤ x.candidate)

/-- The at most three candidates that are close to `word`, the most alike first. -/
def closeMatches (word : String) (candidates : List String) : List String :=
  let close := (candidates.map (likeness word)).filter Likeness.isClose
  ((close.mergeSort Likeness.atLeast).take 3).map Likeness.candidate

end TeenyLang.Text
