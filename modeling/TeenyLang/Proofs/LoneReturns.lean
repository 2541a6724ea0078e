import TeenyLang.Proofs.Composition
import TeenyLang.Proofs.FileSystem
import TeenyLang.Proofs.LineEnds

set_option autoImplicit false

/-!
# Carriage returns that stand alone

Such a carriage return is a blank to the scanner, and a newline in the text of a file. A source that
is accepted has more tokens when it is read from a file, at least one for each of them
(`loneReturns_of_agrees`), so the two ways of compiling it then differ.
-/
namespace TeenyLang

namespace Lexical

theorem prefix_before {x y z : List Char} {c : Char} (h : x <+: y ++ c :: z) (hc : c ∉ x) :
    x <+: y := by
  rcases Nat.lt_or_ge y.length x.length with hlt | hle
  · have hshort : (y ++ [c]).length ≤ x.length := by
      rw [List.length_append]
      exact hlt
    have hlonger : y ++ [c] <+: y ++ c :: z := ⟨z, by simp⟩
    have hmem := (List.prefix_of_prefix_length_le hlonger h hshort).subset (by simp : c ∈ y ++ [c])
    exact absurd hmem hc
  · exact List.prefix_of_prefix_length_le h (List.prefix_append y _) hle

/-- What stands behind the end of a line plays no part in the lexemes before it, and neither does
what ends the line. -/
theorem Stands.relined {kind : Kind} {text : String} {lexeme x y z : List Char} {c : Char}
    (h : Stands kind text lexeme (x ++ '\n' :: y)) (hc : c = '\n' ∨ c = '\r') :
    Stands kind text lexeme (x ++ c :: z) := by
  refine ⟨h.spells, fun kind' text' longer hspells hprefix => ?_, fun hkind hwhole after hafter => ?_⟩
  · rcases hspells.chars with ⟨-, rfl⟩ | ⟨-, hclean⟩
    · exact List.length_pos_iff.2 h.spells.ne_nil
    · have hother : c ∉ longer := fun hmem => by
        rcases hc with rfl | rfl
        · exact (hclean _ hmem).1 rfl
        · exact (hclean _ hmem).2 rfl
      rw [← List.append_assoc] at hprefix
      refine h.longest kind' text' longer hspells ?_
      rw [← List.append_assoc]
      exact (prefix_before hprefix hother).trans (List.prefix_append _ _)
  · cases x with
    | nil =>
      rw [List.nil_append, List.cons.injEq] at hafter
      rcases hc with rfl | rfl <;> exact absurd hafter.1 (by decide)
    | cons d x =>
      obtain ⟨rfl, rfl⟩ := List.cons.inj hafter
      obtain ⟨e, he, hdigit⟩ := h.point hkind hwhole _ rfl
      cases x with
      | nil =>
        cases he
        exact absurd hdigit (by decide)
      | cons e' x => exact ⟨e, he, hdigit⟩

def newlinePiece (gap : List Char) : Piece :=
  ⟨gap, ['\n'], .newline, "\n"⟩

theorem newline_notMem_gap {gap rest : List Char} (h : IsGap gap rest) : '\n' ∉ gap := by
  obtain ⟨blanks, comment, rfl, hblanks, hcomment⟩ := h
  rw [List.mem_append, not_or]
  refine ⟨fun hmem => absurd (hblanks _ hmem) (by decide), ?_⟩
  rcases hcomment with rfl | ⟨remark, rfl, hclean, -⟩
  · simp
  · simpa using hclean

theorem stands_newline (rest : List Char) : Stands .newline "\n" ['\n'] rest := by
  have hread : readLexeme (['\n'] ++ rest) = .found .newline "\n" 1 := rfl
  obtain ⟨lexeme, rest', hsplit, hlength, hstands⟩ := stands_of_readLexeme hread (by simp)
  obtain ⟨rfl, rfl⟩ := List.append_inj hsplit hlength.symm
  exact hstands

theorem isSplit_newline {gap rest : List Char} {pieces : List Piece}
    (hgap : IsGap gap ('\n' :: rest)) (h : IsSplit pieces rest) :
    IsSplit (newlinePiece gap :: pieces) (gap ++ '\n' :: rest) := by
  have hcons : IsSplit (newlinePiece gap :: pieces) ((newlinePiece gap).chars ++ rest) :=
    .cons hgap (stands_newline rest) h
  rwa [Piece.chars, newlinePiece, List.append_assoc] at hcons

/-- A piece with a newline in it is the newline. -/
theorem piece_of_newline {p : Piece} {x y rest : List Char} (hgap : IsGap p.gap (p.lexeme ++ rest))
    (hspells : Spells p.kind p.text p.lexeme) (h : p.chars = x ++ '\n' :: y) :
    p = newlinePiece x ∧ y = [] := by
  obtain ⟨gap, lexeme, kind, text⟩ := p
  have hclean := newline_notMem_gap hgap
  change gap ++ lexeme = _ at h
  rcases hspells.chars with ⟨rfl, rfl⟩ | ⟨-, hchars⟩
  · obtain ⟨rfl, -, rfl⟩ := (List.append_cons_inj_of_notMem hclean (by simp)).1 h
    cases hspells
    exact ⟨rfl, rfl⟩
  · have hmem : '\n' ∈ gap ++ lexeme := by simp [h]
    rcases List.mem_append.1 hmem with hmem | hmem
    · exact absurd hmem hclean
    · exact absurd rfl (hchars _ hmem).1

/-- A newline is a piece of its own, and the pieces before it go with any end of their line. -/
theorem IsSplit.at_newline {pieces : List Piece} {x y : List Char}
    (h : IsSplit pieces (x ++ '\n' :: y)) :
    ∃ before gap after, pieces = before ++ newlinePiece gap :: after ∧ IsGap gap ('\n' :: y) ∧
      IsSplit after y ∧ ∀ tail c rest, (c = '\n' ∨ c = '\r') → IsSplit tail (gap ++ c :: rest) →
        IsSplit (before ++ tail) (x ++ c :: rest) := by
  generalize htext : x ++ '\n' :: y = text at h
  induction h generalizing x with
  | nil => simp at htext
  | @cons p pieces rest hgap hstands hrest ih =>
    have hcases : (∃ x', x = p.chars ++ x' ∧ x' ++ '\n' :: y = rest) ∨
        p = newlinePiece x ∧ y = rest := by
      rcases List.append_eq_append_iff.1 htext with ⟨inside, hchars, htail⟩ | ⟨x', hx, hrest⟩
      · cases inside with
        | nil => exact .inl ⟨[], by simpa using hchars.symm, htail⟩
        | cons c inside =>
          obtain ⟨rfl, rfl⟩ := List.cons.inj htail
          obtain ⟨hp, rfl⟩ := piece_of_newline hgap hstands.spells hchars
          exact .inr ⟨hp, rfl⟩
      · exact .inl ⟨x', hx, hrest.symm⟩
    rcases hcases with ⟨x', rfl, hrest'⟩ | ⟨rfl, rfl⟩
    · obtain ⟨before, gap, after, rfl, hgap', hafter, hlines⟩ := ih hrest'
      refine ⟨p :: before, gap, after, rfl, hgap', hafter, fun tail c rest hc htail => ?_⟩
      rw [List.append_assoc, List.cons_append]
      rw [← hrest'] at hstands
      refine .cons ?_ (hstands.relined hc) (hlines tail c rest hc htail)
      obtain ⟨blanks, comment, hparts, hblanks, hcomment⟩ := hgap
      refine ⟨blanks, comment, hparts, hblanks, hcomment.imp_right ?_⟩
      rintro ⟨remark, hremark, hclean, hnewline⟩
      refine ⟨remark, hremark, hclean, ?_⟩
      rw [List.head?_append_of_ne_nil _ hstands.spells.ne_nil] at hnewline ⊢
      exact hnewline
    · exact ⟨[], x, pieces, rfl, hgap, hrest, fun tail c rest _ htail => htail⟩

/-- A carriage return right before a newline goes to the gap before it. -/
theorem IsSplit.insert_return {pieces : List Piece} {x y : List Char}
    (h : IsSplit pieces (x ++ '\n' :: y)) :
    ∃ pieces', IsSplit pieces' (x ++ '\r' :: '\n' :: y) ∧ pieces'.length = pieces.length := by
  obtain ⟨before, gap, after, rfl, hgap, hafter, hlines⟩ := h.at_newline
  refine ⟨before ++ newlinePiece (gap ++ ['\r']) :: after, hlines _ _ _ (.inr rfl) ?_, by simp⟩
  have hlonger : IsGap (gap ++ ['\r']) ('\n' :: y) := by
    obtain ⟨blanks, comment, rfl, hblanks, rfl | ⟨remark, rfl, hclean, hnewline⟩⟩ := hgap
    · refine ⟨blanks ++ ['\r'], [], by simp, ?_, .inl rfl⟩
      exact List.forall_mem_append.2 ⟨hblanks, by simp⟩
    · refine ⟨blanks, '#' :: (remark ++ ['\r']), by simp, hblanks, .inr ⟨_, rfl, ?_, hnewline⟩⟩
      simpa using hclean
  have hsplit := isSplit_newline hlonger hafter
  rwa [List.append_assoc] at hsplit

/-- With a carriage return in place of a newline there is a piece less at least: the line after it
joins the line before it, or the comment at the end of that. -/
theorem IsSplit.join_lines {pieces : List Piece} {x y : List Char}
    (h : IsSplit pieces (x ++ '\n' :: y)) (hy : '\n' ∈ y) :
    ∃ pieces', IsSplit pieces' (x ++ '\r' :: y) ∧ pieces'.length + 1 ≤ pieces.length := by
  obtain ⟨before, gap, after, rfl, hgap, hafter, hlines⟩ := h.at_newline
  obtain ⟨blanks, comment, rfl, hblanks, rfl | ⟨remark, rfl, hclean, -⟩⟩ := hgap
  · rw [List.append_nil] at hlines
    cases hafter with
    | nil => cases hy
    | @cons p pieces rest hgap hstands hrest =>
      refine ⟨before ++ ⟨blanks ++ '\r' :: p.gap, p.lexeme, p.kind, p.text⟩ :: pieces,
        hlines _ _ _ (.inr rfl) ?_, by simp only [List.length_append, List.length_cons]; omega⟩
      obtain ⟨blanks', comment, hparts, hblanks', hcomment⟩ := hgap
      have hcons : IsSplit (⟨blanks ++ '\r' :: p.gap, p.lexeme, p.kind, p.text⟩ :: pieces)
          ((blanks ++ '\r' :: p.gap) ++ p.lexeme ++ rest) := by
        refine .cons ⟨blanks ++ '\r' :: blanks', comment, ?_, ?_, hcomment⟩ hstands hrest
        · simp [hparts]
        · refine List.forall_mem_append.2 ⟨hblanks, List.forall_mem_cons.2 ⟨by simp, hblanks'⟩⟩
      simpa [Piece.chars] using hcons
  · obtain ⟨z, w, rfl, hz⟩ := List.eq_append_cons_of_mem hy
    obtain ⟨between, gap', after', rfl, -, hafter', -⟩ := hafter.at_newline
    refine ⟨before ++ newlinePiece (blanks ++ '#' :: (remark ++ '\r' :: z)) :: after',
      hlines _ _ _ (.inr rfl) ?_, by simp only [List.length_append, List.length_cons]; omega⟩
    have hcomment : IsGap (blanks ++ '#' :: (remark ++ '\r' :: z)) ('\n' :: w) := by
      refine ⟨blanks, _, rfl, hblanks, .inr ⟨_, rfl, ?_, rfl⟩⟩
      simp [hclean, hz]
    simpa using isSplit_newline hcomment hafter'

/-- The pieces of a text with unified line ends are at least as many as those of the text and its
lone carriage returns together. -/
theorem isSplit_of_unified {text before : List Char} {pieces : List Piece}
    (h : IsSplit pieces (before ++ (Text.unifyNewlines text ++ ['\n']))) :
    ∃ pieces', IsSplit pieces' (before ++ (text ++ ['\n'])) ∧
      pieces'.length + Text.loneReturns text ≤ pieces.length := by
  fun_induction Text.unifyNewlines text generalizing before pieces with
  | case1 => exact ⟨pieces, h, le_rfl⟩
  | case2 rest ih =>
    obtain ⟨joined, hsplit, hle⟩ := @ih (before ++ ['\n']) pieces (by simpa using h)
    rw [List.append_assoc] at hsplit
    obtain ⟨pieces', hsplit', hlength⟩ := hsplit.insert_return
    exact ⟨pieces', hsplit', hlength ▸ hle⟩
  | case3 c rest hpair ih =>
    have hlone : c = '\r' → rest.head? ≠ some '\n' := fun hc hhead => by
      cases rest with
      | nil => cases hhead
      | cons d rest => exact hpair rest hc (by rw [Option.some.inj hhead])
    have hcount := Text.loneReturns_cons hlone
    by_cases hc : c = '\r'
    · rw [if_pos hc] at h hcount
      obtain ⟨joined, hsplit, hle⟩ := @ih (before ++ ['\n']) pieces (by simpa using h)
      rw [List.append_assoc] at hsplit
      obtain ⟨pieces', hsplit', hless⟩ := hsplit.join_lines (by simp)
      subst hc
      exact ⟨pieces', hsplit', by omega⟩
    · rw [if_neg hc] at h hcount
      obtain ⟨pieces', hsplit, hle⟩ := @ih (before ++ [c]) pieces (by simpa using h)
      exact ⟨pieces', by simpa using hsplit, by omega⟩

end Lexical

/-! ## The tokens of an accepted source -/

theorem Parser.finished_eq_ok {source file : String} {precision : Int} {p : Parser Scanner}
    (h : Parser.finished source file precision = .ok p) :
    ∃ q, Parser.ofSource source file precision = .ok q ∧ Parser.program q = .ok () p := by
  unfold Parser.finished at h
  split at h
  · cases h
  · next q hq =>
    split at h
    · next hrun =>
      cases h
      exact ⟨q, hq, hrun⟩
    · cases h

/-- A parser that has read a whole program has counted all its tokens but the end of the input. -/
theorem Parser.finished_tokens {source file : String} {precision : Int} {p : Parser Scanner}
    (h : Parser.finished source file precision = .ok p) :
    ∃ ts last, (Scanner.start source file).readAll.failure = none ∧
      (Scanner.start source file).readAll.tokens = ts ++ [last] ∧ p.count = ts.length := by
  obtain ⟨q, hq, hrun⟩ := finished_eq_ok h
  obtain ⟨hfill, -⟩ := start_eq_ok hq
  obtain ⟨P, hpass, hend⟩ := program_passes hrun
  obtain ⟨hread, htokens⟩ := Scanner.readAll_of_passes (hfill.append hpass) hend P.tokens_ne
  replace htokens : (Scanner.start source file).readAll.tokens = P.tokens ++ [p.current] := htokens
  have hperform : q.perform .program = (.ok .nothing, p) := by
    simp only [perform, Call.rule, bind_of_ok hrun]
    rfl
  have hcounted : Counted (Scanner.start source file) (q.perform .program).2 :=
    perform_counted (counted_start hq) .program (by rw [hperform]; simp)
  simp only [hperform] at hcounted
  obtain ⟨i, hcurrent, -, hcount⟩ := hcounted.reading
  -- the current token is the end of the input, so all others stand before it
  have hi : P.tokens.length ≤ i := by
    by_contra hlt
    rw [Nat.not_le] at hlt
    have hget : (Scanner.start source file).readAll.tokens[i]? = some P.tokens[i] := by
      rw [htokens, List.getElem?_append_left hlt, List.getElem?_eq_getElem hlt]
    have hsame := Option.some.inj (hcurrent.symm.trans (Scanner.Outcome.token?_of_getElem hget))
    exact P.tokens_ne _ (List.getElem_mem hlt) (hsame ▸ hend)
  have hplain : countTokens P.tokens = P.tokens.length := by
    rw [countTokens, List.countP_eq_length]
    exact fun t ht => by simpa using P.tokens_ne t ht
  refine ⟨P.tokens, p.current, hread, htokens, ?_⟩
  rw [hcount, htokens, List.take_of_length_le (by simp; omega), countTokens, List.countP_append,
    ← countTokens, hplain]
  simp [hend]

theorem Lexical.length_tokensAfter (file : String) (before : List Char) (pieces : List Piece) :
    (tokensAfter file before pieces).length = pieces.length := by
  induction pieces generalizing before with
  | nil => rfl
  | cons p pieces ih => rw [tokensAfter, List.length_cons, ih, List.length_cons]

theorem Parser.finished_pieces {source file : String} {precision : Int} {p : Parser Scanner}
    (h : Parser.finished source file precision = .ok p) :
    ∃ pieces, Lexical.IsSplit pieces (source.toList ++ ['\n']) ∧ p.count = pieces.length := by
  obtain ⟨ts, last, hread, htokens, hcount⟩ := finished_tokens h
  obtain ⟨pieces, hpieces⟩ := Lexical.exists_isSplit _ hread (Lexical.closed_source source file)
  have hsame := (Lexical.readAll_of_isSplit hpieces (Lexical.placed_source source file) rfl).2
  have hlength := congrArg List.length (htokens.symm.trans hsame)
  rw [List.length_append, List.length_append, Lexical.length_tokensAfter] at hlength
  exact ⟨pieces, hpieces, hcount.trans (Nat.add_right_cancel hlength)⟩

theorem finished_of_isAccepted {options : Options} {source file : String}
    (h : (compile options source file).1.isAccepted = true) :
    ∃ p, Parser.finished source file options.precision = .ok p ∧
      (compile options source file).1 = .ofParser file (.accepted p.listing.text) p := by
  cases hq : Parser.ofSource source file options.precision with
  | error d =>
    simp only [compile, hq] at h
    cases h
  | ok q =>
    cases hrun : Parser.program q with
    | error d p =>
      simp only [compile, hq, hrun] at h
      cases h
    | ok _ p =>
      exact ⟨p, by simp only [Parser.finished, hq, hrun], by simp only [compile, hq, hrun]⟩

/-- A source that is accepted is compiled alike with unified line ends only if no carriage return in
it stands alone. -/
theorem loneReturns_of_agrees {options : Options} {source file : String}
    (haccepted : (compile options source file).1.isAccepted = true)
    (h : (compile options source file).1.Agrees
      (compile options (String.ofList (Text.unifyNewlines source.toList)) file).1) :
    Text.loneReturns source.toList = 0 := by
  obtain ⟨p, hp, hcompile⟩ := finished_of_isAccepted haccepted
  obtain ⟨q, hq, hcompile'⟩ := finished_of_isAccepted (h.isAccepted ▸ haccepted)
  have hcount := congrArg Compilation.tokenCount hcompile
  have hcount' := congrArg Compilation.tokenCount hcompile'
  obtain ⟨pieces, hpieces, hlength⟩ := Parser.finished_pieces hp
  obtain ⟨pieces', hpieces', hlength'⟩ := Parser.finished_pieces hq
  rw [String.toList_ofList] at hpieces'
  obtain ⟨unified, hsplit, hle⟩ := @Lexical.isSplit_of_unified source.toList [] _ hpieces'
  obtain rfl := hsplit.unique hpieces
  have hsame := h.tokenCount
  simp only [Compilation.ofParser] at hcount hcount'
  omega

/-! ## A file and its text -/

/-- A file is compiled like the text that it holds if no carriage return stands alone in it; a text
that is accepted is compiled like its file only then. -/
theorem compileFile_agrees {S : Type} [FileSystem S] {files : S} {path source : String}
    (options : Options)
    (h : FileAccess.readIn files (Path.ofText path).text = .ok (Text.encodeUtf8 source)) :
    ∃ result log,
      (Build.compileFile options path : StateM S (Except Failure Compilation × List LogEntry)).run
          files = ((.ok result, log), files) ∧
        (Text.loneReturns source.toList = 0 → (compile options source path).1.Agrees result) ∧
        ((compile options source path).1.isAccepted = true →
          ((compile options source path).1.Agrees result ↔ Text.loneReturns source.toList = 0)) := by
  have hagree (hnone : Text.loneReturns source.toList = 0) := compile_unifyNewlines hnone options path
  exact ⟨_, _, Build.compileFile_of_isSource ⟨source, h, rfl⟩ options, hagree,
    fun haccepted => ⟨loneReturns_of_agrees haccepted, hagree⟩⟩

def returnedLines : String :=
  "PRINT \"ü\"\r\nLET a = 1 # one\r\n"

def returnedFile : FileTree :=
  .single "a.teeny" (Text.encodeUtf8 returnedLines)

theorem compileFile_agrees_returnedLines :
    (compile {} returnedLines "a.teeny").1.isAccepted = true ∧
      ∃ result log,
        (Build.compileFile {} "a.teeny" : StateM FileTree
            (Except Failure Compilation × List LogEntry)).run returnedFile =
          ((.ok result, log), returnedFile) ∧
        (compile {} returnedLines "a.teeny").1.Agrees result := by
  have haccepted : (compile {} returnedLines "a.teeny").1.isAccepted = true := by
    decide +kernel
  obtain ⟨result, log, hrun, -, hexact⟩ :=
    @compileFile_agrees FileTree _ returnedFile "a.teeny" returnedLines {} rfl
  exact ⟨haccepted, result, log, hrun, (hexact haccepted).2 (by decide)⟩

/-- A carriage return in a comment: in the file the comment ends there, and a statement follows. -/
theorem loneReturn_ends_comment :
    (compile {} "# note\rPRINT 1\n" "a.teeny").1.output =
        "#include <stdio.h>\nint main(void) \x7b\nreturn 0;\n\x7d\n" ∧
      ((Build.compileFile {} "a.teeny" : StateM FileTree
            (Except Failure Compilation × List LogEntry)).run
          (.single "a.teeny" (Text.encodeUtf8 "# note\rPRINT 1\n"))).1.1.map Compilation.output =
        .ok ("#include <stdio.h>\nint main(void) \x7b\n" ++
          "printf(\"%.2f\\n\", (float)(1));\nreturn 0;\n\x7d\n") := by
  constructor
  · decide +kernel
  · decide +kernel

end TeenyLang
