import TeenyLang.Proofs.Acceptance
import TeenyLang.Proofs.LineSeam
import TeenyLang.Proofs.Relocation

set_option autoImplicit false

/-!
# Sources one after the other

Two accepted sources with a newline between them make an accepted source, unless they share a label.
The tokens of the second one are its own, some lines further down, so the tree of the whole is the
tree of the first and then that of the second; its body is made of the two bodies, and it declares
the variables of the first and then those of the second that are new.
-/
namespace TeenyLang

open Grammar

namespace Lexical

/-- The place `n` lines further down in a source named `file`. -/
def shifted (file : String) (n : Nat) (a : Location) : Location :=
  ⟨file, a.line + n, a.column⟩

theorem placeAfter_append {before : List Char} (h : Closed before) (file file' : String)
    (x : List Char) :
    placeAfter file (before ++ x) = shifted file (before.count '\n') (placeAfter file' x) := by
  have hcolumn : ((before ++ x).reverse.takeWhile (· ≠ '\n')) = x.reverse.takeWhile (· ≠ '\n') := by
    rcases h with rfl | hlast
    · rfl
    · obtain ⟨y, rfl⟩ := List.getLast?_eq_some_iff.1 hlast
      rw [List.reverse_append, List.reverse_concat]
      exact takeWhile_stop (by decide) x.reverse y.reverse
  simp only [placeAfter, shifted, hcolumn, List.count_append, Location.mk.injEq, and_true, true_and]
  omega

theorem tokensAfter_shifted {before : List Char} (h : Closed before) (file file' : String)
    (x : List Char) (pieces : List Piece) :
    tokensAfter file (before ++ x) pieces =
      (tokensAfter file' x pieces).map (Token.moved (shifted file (before.count '\n'))) := by
  induction pieces generalizing x with
  | nil => rfl
  | cons p pieces ih =>
    rw [tokensAfter, tokensAfter, List.map_cons, List.append_assoc, List.append_assoc, ih,
      placeAfter_append h file file']
    rfl

theorem IsSplit.tokensAfter_append {pieces : List Piece} {text : List Char}
    (h : IsSplit pieces text) (file : String) (before : List Char) (more : List Piece) :
    tokensAfter file before (pieces ++ more) =
      tokensAfter file before pieces ++ tokensAfter file (before ++ text) more := by
  induction h generalizing before with
  | nil => simp [tokensAfter]
  | cons _ _ _ ih => rw [List.cons_append, tokensAfter, ih, tokensAfter, List.append_assoc]; rfl

end Lexical

open Lexical

theorem Derives.pieces {source file : String} {P : Program} (h : Derives source file P) :
    ∃ pieces, IsSplit pieces (source.toList ++ ['\n']) ∧ tokensAfter file [] pieces = P.tokens := by
  obtain ⟨hfailure, last, _, htokens⟩ := h
  obtain ⟨pieces, hsplit⟩ := exists_isSplit _ hfailure (closed_source source file)
  have hread := (readAll_of_isSplit hsplit (placed_source source file) rfl).2
  rw [htokens] at hread
  exact ⟨pieces, hsplit, (List.append_inj' hread rfl).1.symm⟩

theorem derives_of_pieces {source file : String} {P : Program} {pieces : List Piece}
    (hsplit : IsSplit pieces (source.toList ++ ['\n']))
    (htokens : tokensAfter file [] pieces = P.tokens) : Derives source file P := by
  obtain ⟨hfailure, hread⟩ := readAll_of_isSplit hsplit (placed_source source file) rfl
  change _ = tokensAfter file [] pieces ++ _ at hread
  rw [htokens] at hread
  exact ⟨hfailure, _, rfl, hread⟩

/-- Some tree of the two sources together has the names and the code of both, one after the
other. -/
theorem Derives.join {p q file file' : String} {P Q : Program} (hp : Derives p file P)
    (hq : Derives q file' Q) (joint : String) :
    ∃ R : Program, Derives (p ++ "\n" ++ q) joint R ∧
      (∃ f g, R.uses = P.uses.map (Use.moved f) ++ Q.uses.map (Use.moved g)) ∧
      ∀ precision, bodyCode precision R.statements =
        bodyCode precision P.statements ++ bodyCode precision Q.statements := by
  obtain ⟨pieces, hsplit, htokens⟩ := hp.pieces
  obtain ⟨pieces', hsplit', htokens'⟩ := hq.pieces
  have hclosed : Closed (p.toList ++ ['\n']) := .inr (by simp)
  let f := shifted joint 0
  let g := shifted joint ((p.toList ++ ['\n']).count '\n')
  obtain ⟨R, hR, huses, hcode⟩ := (P.moved f).exists_join (Q.moved g)
  have hwhole := hsplit.append hclosed hsplit'
  have htext : p.toList ++ ['\n'] ++ (q.toList ++ ['\n']) = (p ++ "\n" ++ q).toList ++ ['\n'] := by
    simp
  rw [htext] at hwhole
  refine ⟨R, derives_of_pieces hwhole ?_, ⟨f, g, ?_⟩, fun precision => ?_⟩
  · have hfirst := tokensAfter_shifted (.inl rfl) joint file [] pieces
    have hsecond := tokensAfter_shifted hclosed joint file' [] pieces'
    rw [List.append_nil] at hfirst hsecond
    rw [hsplit.tokensAfter_append, List.nil_append, hfirst, hsecond, htokens, htokens', hR,
      P.tokens_moved, Q.tokens_moved]
    rfl
  · rw [huses, P.uses_moved, Q.uses_moved]
  · rw [hcode, P.code_moved, Q.code_moved]

/-! ## The parser at the end of a source -/

/-- The parser that has read a whole source, if the source is accepted. -/
def Parser.finished (source file : String) (precision : Int) :
    Except Diagnostic (Parser Scanner) :=
  match Parser.ofSource source file precision with
  | .error d => .error d
  | .ok p =>
    match Parser.program p with
    | .ok _ q => .ok q
    | .error d _ => .error d

theorem targetText_eq_finished (source file : String) (precision : Int) :
    targetText source file precision =
      (Parser.finished source file precision).map fun p => p.listing.text := by
  change (Parser.ofSource source file precision).bind _ = _
  unfold Parser.finished
  cases Parser.ofSource source file precision with
  | error d => rfl
  | ok p =>
    simp only [Except.bind]
    cases Parser.program p <;> rfl

theorem finished_of_toOption {source file : String} {precision : Int} {p : Parser Scanner}
    (h : (Parser.finished source file precision).toOption = some p) :
    Parser.finished source file precision = .ok p := by
  cases hp : Parser.finished source file precision <;> rw [hp] at h <;> cases h
  rfl

theorem finished_of_targetText {source file text : String} {precision : Int}
    (h : targetText source file precision = .ok text) :
    ∃ p, Parser.finished source file precision = .ok p := by
  rw [targetText_eq_finished] at h
  cases hp : Parser.finished source file precision with
  | error d =>
    rw [hp] at h
    cases h
  | ok p => exact ⟨p, rfl⟩

def heading : String :=
  line "#include <stdio.h>" ++ line "int main(void) \x7b"

def footer : String :=
  line "return 0;" ++ line "\x7d"

/-- What a parser has noted down about the program of a tree. -/
structure Parser.Translates (precision : Int) (P : Program) (p : Parser Scanner) : Prop where
  variableNames : p.variableNames = (named .target P.uses).eraseDups
  labels : p.labels.map Prod.fst = named .label P.uses
  opening : p.listing.opening = heading ++ declarations p.variableNames
  body : p.listing.body = bodyCode precision P.statements ++ footer

theorem finished_of_derives {source file : String} {P : Program} (h : Derives source file P)
    (hnames : WellNamed P.uses) (precision : Int) :
    ∃ p, Parser.finished source file precision = .ok p ∧ p.Translates precision P := by
  obtain ⟨p, l, hp, lines, hends⟩ := program_of_derives h precision
  obtain ⟨r, hholds, hfinish⟩ :=
    Record.finish_initial precision lines (bodyCode precision P.statements) hnames
  rw [hfinish] at hends
  obtain ⟨q, hq, -, hrecord⟩ := hends
  refine ⟨q, by simp only [Parser.finished, hp, hq], ?_⟩
  have hvariables : q.variableNames = r.variableNames := congrArg Record.variableNames hrecord
  have hlabels : q.labels = r.labels := congrArg Record.labels hrecord
  have hlisting : q.listing = _ := congrArg Record.listing hrecord
  refine ⟨hvariables.trans hholds.variableNames, ?_, ?_, ?_⟩
  · rw [hlabels, hholds.labels]
  · rw [hlisting, hvariables]
    exact hholds.opening
  · rw [hlisting]
    change r.listing.body ++ _ ++ _ = _
    rw [hholds.body]
    simp [Record.initial, Record.prepared, Parser.blankRecord, Target.Listing.declare, footer]

theorem translates_of_finished {source file : String} {precision : Int} {p : Parser Scanner}
    (h : Parser.finished source file precision = .ok p) {P : Program} (hP : Derives source file P) :
    WellNamed P.uses ∧ p.Translates precision P := by
  have htext : targetText source file precision = .ok p.listing.text := by
    rw [targetText_eq_finished, h]
    rfl
  have hnames := wellNamed_of_targetText htext hP
  obtain ⟨q, hq, htranslates⟩ := finished_of_derives hP hnames precision
  obtain rfl : p = q := Except.ok.inj (h.symm.trans hq)
  exact ⟨hnames, htranslates⟩

theorem derives_of_finished {source file : String} {precision : Int} {p : Parser Scanner}
    (h : Parser.finished source file precision = .ok p) : ∃ P, Derives source file P :=
  derives_of_targetText (by rw [targetText_eq_finished, h]; rfl)

/-- The names of two lists, each at its first place. -/
theorem eraseDups_append_filter (xs ys : List String) :
    (xs ++ ys).eraseDups =
      xs.eraseDups ++ ys.eraseDups.filter fun y => !xs.eraseDups.contains y := by
  induction ys using List.reverseRecOn with
  | nil => simp
  | append_singleton ys y ih =>
    rw [← List.append_assoc, Record.eraseDups_concat, Record.eraseDups_concat, ih]
    by_cases hxs : y ∈ xs <;> by_cases hys : y ∈ ys <;>
      simp [hxs, hys, List.mem_eraseDups]

/-- Of two accepted sources, the one and then the other with a newline between them is accepted
exactly if they share no label. The body of its translation is then the body of the first without
the footer and the body of the second, and its opening part is that of the first and then the
declarations of the second, in its order, of variables that the first does not declare. -/
theorem finished_join {p q file file' : String} {precision : Int} {P Q : Parser Scanner}
    (hp : Parser.finished p file precision = .ok P)
    (hq : Parser.finished q file' precision = .ok Q) (joint : String) :
    ((∃ text, targetText (p ++ "\n" ++ q) joint precision = .ok text) ↔
      List.Disjoint (P.labels.map Prod.fst) (Q.labels.map Prod.fst)) ∧
    ∀ R, Parser.finished (p ++ "\n" ++ q) joint precision = .ok R →
      targetText (p ++ "\n" ++ q) joint precision = .ok (R.listing.opening ++ R.listing.body) ∧
      (∃ body, P.listing.body = body ++ footer ∧ R.listing.body = body ++ Q.listing.body) ∧
      P.listing.opening = heading ++ declarations P.variableNames ∧
      Q.listing.opening = heading ++ declarations Q.variableNames ∧
      R.listing.opening = P.listing.opening ++
        declarations (Q.variableNames.filter fun name => !P.variableNames.contains name) := by
  obtain ⟨T, hT⟩ := derives_of_finished hp
  obtain ⟨U, hU⟩ := derives_of_finished hq
  obtain ⟨hnames, hfirst⟩ := translates_of_finished hp hT
  obtain ⟨hnames', hsecond⟩ := translates_of_finished hq hU
  obtain ⟨V, hV, ⟨f, g, huses⟩, hcode⟩ := hT.join hU joint
  constructor
  · have hjoint : WellNamed V.uses ↔
        List.Disjoint (P.labels.map Prod.fst) (Q.labels.map Prod.fst) := by
      rw [huses, wellNamed_append (wellNamed_moved f hnames) (wellNamed_moved g hnames'),
        named_moved, named_moved, hfirst.labels, hsecond.labels]
    rw [← hjoint]
    constructor
    · rintro ⟨text, htext⟩
      exact wellNamed_of_targetText htext hV
    · intro hwell
      exact ⟨_, targetText_of_wellNamed hV hwell precision⟩
  · intro R hR
    obtain ⟨-, hwhole⟩ := translates_of_finished hR hV
    have hvariables : R.variableNames = P.variableNames ++
        Q.variableNames.filter fun name => !P.variableNames.contains name := by
      rw [hwhole.variableNames, huses, named_append, named_moved, named_moved,
        eraseDups_append_filter, hfirst.variableNames, hsecond.variableNames]
    refine ⟨by rw [targetText_eq_finished, hR]; rfl, ⟨_, hfirst.body, ?_⟩, hfirst.opening,
      hsecond.opening, ?_⟩
    · rw [hwhole.body, hsecond.body, hcode, String.append_assoc]
    · rw [hwhole.opening, hfirst.opening, hvariables, declarations, concatMap_append,
        String.append_assoc]
      rfl

/-- The first source ends in a comment, the second begins with a blank line and shares a variable
with the first. -/
theorem finished_join_shared :
    ∃ P Q R : Parser Scanner,
      Parser.finished "LET a = 1\nLABEL x # here" "p" 2 = .ok P ∧
      Parser.finished "\nINPUT b\nLET a = b\nLABEL y\nGOTO y" "q" 2 = .ok Q ∧
      Parser.finished ("LET a = 1\nLABEL x # here" ++ "\n" ++
        "\nINPUT b\nLET a = b\nLABEL y\nGOTO y") "both" 2 = .ok R ∧
      List.Disjoint (P.labels.map Prod.fst) (Q.labels.map Prod.fst) ∧
      (∃ body, P.listing.body = body ++ footer ∧ R.listing.body = body ++ Q.listing.body) ∧
      R.listing.opening = P.listing.opening ++ declarations ["b"] := by
  have hfirst : ((Parser.finished "LET a = 1\nLABEL x # here" "p" 2).toOption.map fun p =>
      (p.labels.map Prod.fst, p.variableNames)) = some (["x"], ["a"]) := by decide +kernel
  have hsecond : ((Parser.finished "\nINPUT b\nLET a = b\nLABEL y\nGOTO y" "q" 2).toOption.map
      fun p => (p.labels.map Prod.fst, p.variableNames)) = some (["y"], ["b", "a"]) := by
    decide +kernel
  obtain ⟨P, hP, hlabels⟩ := Option.map_eq_some_iff.1 hfirst
  obtain ⟨Q, hQ, hlabels'⟩ := Option.map_eq_some_iff.1 hsecond
  have hp := finished_of_toOption hP
  have hq := finished_of_toOption hQ
  simp only [Prod.mk.injEq] at hlabels hlabels'
  obtain ⟨haccepted, hparts⟩ := finished_join hp hq "both"
  have hdisjoint : List.Disjoint (P.labels.map Prod.fst) (Q.labels.map Prod.fst) := by
    rw [hlabels.1, hlabels'.1]
    simp
  obtain ⟨text, htext⟩ := haccepted.2 hdisjoint
  obtain ⟨R, hR⟩ := finished_of_targetText htext
  obtain ⟨-, hbody, -, -, hopening⟩ := hparts R hR
  rw [hlabels.2, hlabels'.2] at hopening
  exact ⟨P, Q, R, hp, hq, hR, hdisjoint, hbody, hopening⟩

end TeenyLang
