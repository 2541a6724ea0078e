import TeenyLang.Proofs.CommandRun
import TeenyLang.Proofs.Quoting
import TeenyLang.Proofs.ShownLine

set_option autoImplicit false

/-!
# Dumps of tokens

A dump shows the kind of a token, its text and its place. The text is quoted, so it cannot be taken
for what stands around it, and all of the dump is printable. The lines of a listing of tokens are
the dumps, one for each token, and from them the tokens are found again.
-/
namespace TeenyLang

open Text (isPrintable quotedChars)

/-! ## One token -/

/-- What a dump shows of a token: all but the name of its source. -/
def Token.shown (t : Token) : Kind × String × Int × Int :=
  (t.kind, t.text, t.location.line, t.location.column)

theorem Kind.ofName?_name (kind : Kind) : ofName? kind.name = some kind := by
  cases kind with
  | keyword word => cases word <;> decide
  | operator op => cases op <;> decide
  | _ => decide

theorem Kind.name_chars (kind : Kind) :
    ∀ c ∈ kind.name.toList, Text.isVisible c ∧ c ≠ ',' := by
  have hall : Kind.all.all fun kind => kind.name.toList.all fun c =>
      Text.isVisible c && c ≠ ',' := by
    decide
  have hmem : kind ∈ Kind.all := List.mem_of_find?_eq_some (ofName?_name kind)
  intro c hc
  simpa using List.all_eq_true.1 (List.all_eq_true.1 hall kind hmem) c hc

theorem repr_chars (n : Int) : ∀ c ∈ n.repr.toList, Text.isVisible c ∧ c ≠ ':' := by
  have hdigits (k : Nat) : ∀ c ∈ k.repr.toList, Text.isVisible c ∧ c ≠ ':' := by
    intro c hc
    rw [Nat.toList_repr] at hc
    have hdigit := Nat.isDigit_of_mem_toDigits (by decide) (by decide) hc
    obtain ⟨hlow, hhigh⟩ := Char.isDigit_iff_toNat.1 hdigit
    have hzero : '0'.toNat = 48 := rfl
    have hnine : '9'.toNat = 57 := rfl
    refine ⟨?_, ?_⟩
    · simp only [Text.isVisible, Bool.and_eq_true, decide_eq_true_eq]
      omega
    · rintro rfl
      exact absurd hdigit (by decide)
  rw [Int.repr_eq_if]
  split
  · exact hdigits n.toNat
  · rw [String.toList_append]
    exact List.forall_mem_append.2 ⟨by simp [Text.isVisible], hdigits (-n).toNat⟩

theorem repr_toList_inj {m n : Int} (h : m.repr.toList = n.repr.toList) : m = n := by
  have hdigits {k l : Nat} (h : k.repr.toList = l.repr.toList) : k = l := by
    rw [Nat.toList_repr, Nat.toList_repr] at h
    rw [← Nat.ofDigitChars_ten_toDigits (n := k), h, Nat.ofDigitChars_ten_toDigits]
  -- a minus sign is no digit, so both numbers have one or neither has
  have hsign {k l : Nat} (h : k.repr.toList = "-".toList ++ l.repr.toList) : False := by
    rw [Nat.toList_repr] at h
    have hminus : '-' ∈ Nat.toDigits 10 k := by simp [h]
    exact absurd (Nat.isDigit_of_mem_toDigits (by decide) (by decide) hminus) (by decide)
  rw [Int.repr_eq_if, Int.repr_eq_if] at h
  split at h
  · split at h
    · have hvalue := hdigits h
      omega
    · rw [String.toList_append] at h
      exact (hsign h).elim
  · split at h
    · rw [String.toList_append] at h
      exact (hsign h.symm).elim
    · rw [String.toList_append, String.toList_append, List.append_cancel_left_eq] at h
      have hvalue := hdigits h
      omega

/-- What stands before the first of the separators is found again with what stands behind it. -/
theorem separated_inj {c : Char} {xs ys rest rest' : List Char} (hxs : c ∉ xs) (hys : c ∉ ys)
    (h : xs ++ c :: rest = ys ++ c :: rest') : xs = ys ∧ rest = rest' := by
  have hrun {run : List Char} (hrun : c ∉ run) : ∀ d ∈ run, decide (d ≠ c) := fun d hd => by
    simpa using fun heq : d = c => hrun (heq ▸ hd)
  have hstop {rest : List Char} : ∀ d ∈ (c :: rest).head?, decide (d ≠ c) = false := by simp
  have hbefore := congrArg (List.takeWhile (· ≠ c)) h
  have hafter := congrArg (List.dropWhile (· ≠ c)) h
  rw [Lexical.takeWhile_run (hrun hxs) hstop, Lexical.takeWhile_run (hrun hys) hstop] at hbefore
  rw [Lexical.dropWhile_run (hrun hxs) hstop, Lexical.dropWhile_run (hrun hys) hstop] at hafter
  exact ⟨hbefore, List.tail_eq_of_cons_eq hafter⟩

namespace Token

theorem dump_toList (t : Token) :
    t.dump.toList = "Token(".toList ++ (t.kind.name.toList ++ ',' :: ' ' ::
      (quotedChars t.text.toList ++ ',' :: ' ' :: (t.location.line.repr.toList ++ ':' ::
        (t.location.column.repr.toList ++ [')'])))) := by
  have hplain (text : String) : toString text = text := rfl
  simp [dump, Text.quoted, hplain]

theorem shown_of_dump {t u : Token} (h : t.dump = u.dump) : t.shown = u.shown := by
  have hchars := congrArg String.toList h
  rw [dump_toList, dump_toList, List.append_cancel_left_eq] at hchars
  have hcomma (kind : Kind) : ',' ∉ kind.name.toList := fun hmem =>
    (kind.name_chars ',' hmem).2 rfl
  have hcolon (n : Int) : ':' ∉ n.repr.toList := fun hmem =>
    (repr_chars n ':' hmem).2 rfl
  obtain ⟨hname, hchars⟩ := separated_inj (hcomma t.kind) (hcomma u.kind) hchars
  obtain ⟨htext, hchars⟩ := Text.quotedChars_inj (List.tail_eq_of_cons_eq hchars)
  obtain ⟨hline, hchars⟩ := separated_inj (hcolon t.location.line) (hcolon u.location.line)
    (List.tail_eq_of_cons_eq (List.tail_eq_of_cons_eq hchars))
  have hcolumn := List.append_cancel_right hchars
  have hkind : t.kind = u.kind := by
    rw [← Option.some.injEq, ← Kind.ofName?_name t.kind, ← Kind.ofName?_name u.kind,
      String.toList_inj.1 hname]
  rw [shown, shown, hkind, String.toList_inj.1 htext, repr_toList_inj hline,
    repr_toList_inj hcolumn]

theorem shown_of_dumps {ts us : List Token} (h : ts.map dump = us.map dump) :
    ts.map shown = us.map shown := by
  induction ts generalizing us with
  | nil =>
    obtain rfl := List.map_eq_nil_iff.1 h.symm
    rfl
  | cons t ts ih =>
    cases us with
    | nil => cases h
    | cons u us =>
      obtain ⟨hhead, htail⟩ := List.cons_eq_cons.1 h
      rw [List.map_cons, List.map_cons, shown_of_dump hhead, ih htail]

theorem isPrintable_dump (t : Token) : ∀ c ∈ t.dump.toList, isPrintable c := by
  have hvisible {c : Char} (h : Text.isVisible c) : isPrintable c :=
    Text.isPrintable_of_isVisible h
  have hname : ∀ c ∈ t.kind.name.toList, isPrintable c := fun c hc =>
    hvisible (t.kind.name_chars c hc).1
  have hnumber (n : Int) : ∀ c ∈ n.repr.toList, isPrintable c := fun c hc =>
    hvisible (repr_chars n c hc).1
  have htext : ∀ c ∈ quotedChars t.text.toList, isPrintable c := fun c hc =>
    Text.isPrintable_quotedChars hc
  have hhead : ∀ c ∈ "Token(".toList, isPrintable c := fun c hc =>
    hvisible (List.all_eq_true.1 (by decide : "Token(".toList.all Text.isVisible) c hc)
  simp only [dump_toList, List.forall_mem_append, List.forall_mem_cons]
  exact ⟨hhead, hname, hvisible rfl, hvisible rfl, htext, hvisible rfl, hvisible rfl,
    hnumber _, hvisible rfl, hnumber _, hvisible rfl, by simp⟩

end Token

/-! ## Listings -/

namespace CommandLine

open Build (IsSource)

theorem withoutControls_of_notMem {text : List Char} (h : '\x1b' ∉ text) :
    Text.withoutControls text = text := by
  fun_induction Text.withoutControls text with
  | case1 => rfl
  | case2 | case3 => simp at h
  | case4 c rest hother ih => rw [ih fun hrest => h (List.mem_cons_of_mem c hrest)]

theorem echoed_dump (t : Token) : echoed t.dump = t.dump ++ "\n" := by
  have hescape : '\x1b' ∉ (t.dump ++ "\n").toList := by
    rw [String.toList_append, List.mem_append]
    rintro (hmem | hmem)
    · exact absurd (t.isPrintable_dump _ hmem) (by decide +kernel)
    · simp at hmem
  rw [echoed, Text.plain, withoutControls_of_notMem hescape, String.ofList_toList]

theorem splitLines_dumps (tokens : List Token) :
    Text.splitLines (String.join ((tokens.map Token.dump).map echoed)) =
      tokens.map Token.dump := by
  have hlines : Text.splitLinesFrom [] (String.join ((tokens.map Token.dump).map echoed)).toList =
      tokens.map fun t => t.dump.toList := by
    induction tokens with
    | nil => rfl
    | cons t tokens ih =>
      have hrun : ∀ c ∈ t.dump.toList, Text.isLineBreak c = false := fun c hc =>
        Text.isLineBreak_of_isPrintable (t.isPrintable_dump c hc)
      rw [List.map_cons, List.map_cons, String.join_cons, String.toList_append, echoed_dump,
        String.toList_append, List.append_assoc, Text.splitLinesFrom_run hrun]
      have hbreak (rest line : List Char) : Text.splitLinesFrom line ('\n' :: rest) =
          line.reverse :: Text.splitLinesFrom [] rest :=
        Text.splitLinesFrom_break (by decide) (fun h => absurd h (by decide)) line
      refine (hbreak (String.join ((tokens.map Token.dump).map echoed)).toList _).trans ?_
      rw [ih, List.append_nil, List.reverse_reverse, List.map_cons]
  rw [Text.splitLines, hlines, List.map_map]
  simp

variable {S : Type} [FileSystem S]

/-- A call without a fault that asks for the tokens of a file, which holds `source`. -/
def AsksTokens (files : S) (arguments : List String) (input source : String) : Prop :=
  ∃ words, splitWords arguments = .ok words ∧ words.Valid files input ∧
    words.has .tokens = true ∧ IsSource files (Path.ofText input) source

def tokensOf (input source : String) : List Token :=
  (Scanner.start source (Path.ofText input).text).readAll.tokens

theorem dumpTokens_stdout {files : S} {console : Console} {input : Path} {source : String}
    (h : IsSource files input source) {report : Report} (hstdout : report.stdout = "")
    (htakes : console.Takes "" (tokenLines input source)) :
    ((dumpTokens console input report : StateM S Report).run files).1.stdout =
      String.join ((tokenLines input source).map echoed) := by
  unfold dumpTokens
  rw [run_bind_of_run (Build.readSource_run input files), Build.sourceIn_eq_ok_iff.2 h]
  have htell := report.tell_cases console (tokenLines input source)
  rw [hstdout, String.empty_append] at htell
  rcases htell with ⟨-, told, htell, -, htold⟩ | ⟨hnot, -⟩
  · rw [← htold]
    unfold tokenLines at htell
    simp only [htell]
    cases (Scanner.start source input.text).readAll.failure <;> rfl
  · exact absurd htakes hnot

theorem lines_of_asksTokens {files : S} {arguments : List String} {input source : String}
    (h : AsksTokens files arguments input source) {console : Console}
    (htakes : console.Takes "" ((tokensOf input source).map Token.dump)) (env : Environment) :
    Text.splitLines ((run console env arguments : StateM S Report).run files).1.stdout =
      (tokensOf input source).map Token.dump := by
  obtain ⟨words, hsplit, hvalid, htokens, hsource⟩ := h
  have hasked : (requestOf words).tokens = true := htokens
  simp only [run, hsplit]
  rw [runWords_of_valid hvalid console env, carryOut]
  simp only [hasked, if_true, requestOf_input hvalid]
  rw [dumpTokens_stdout hsource rfl htakes]
  exact splitLines_dumps (tokensOf input source)

end CommandLine

open CommandLine (AsksTokens tokensOf)

/-- Tokens with the same dump have the same kind, text, line and column, and a dump has no line
break in it. So the lines that a listing of tokens prints on a stream that takes them are the dumps of
these tokens, and two listings with the same lines are of the same tokens, whatever their sources
are. -/
theorem dumps_determine_tokens {S S' : Type} [FileSystem S] [FileSystem S'] :
    (∀ t u : Token, t.dump = u.dump → t.kind = u.kind ∧ t.text = u.text ∧
      t.location.line = u.location.line ∧ t.location.column = u.location.column) ∧
    (∀ (t : Token), ∀ c ∈ t.dump.toList, Text.isLineBreak c = false) ∧
    ∀ (files : S) (files' : S') (console console' : CommandLine.Console) (env env' : Environment)
      (arguments arguments' : List String) (input input' source source' : String),
      AsksTokens files arguments input source → AsksTokens files' arguments' input' source' →
      console.Takes "" ((tokensOf input source).map Token.dump) →
      console'.Takes "" ((tokensOf input' source').map Token.dump) →
      let lines := Text.splitLines
        ((CommandLine.run console env arguments : StateM S CommandLine.Report).run files).1.stdout
      let lines' := Text.splitLines
        ((CommandLine.run console' env' arguments' :
          StateM S' CommandLine.Report).run files').1.stdout
      lines = (tokensOf input source).map Token.dump ∧
        (lines = lines' →
          (tokensOf input source).map Token.shown = (tokensOf input' source').map Token.shown) := by
  refine ⟨fun t u h => ?_, fun t c hc => ?_, ?_⟩
  · have hshown := Token.shown_of_dump h
    simpa [Token.shown] using hshown
  · exact Text.isLineBreak_of_isPrintable (t.isPrintable_dump c hc)
  · intro files files' console console' env env' arguments arguments' input input' source source'
      hasks hasks' htakes htakes'
    have hlines := CommandLine.lines_of_asksTokens hasks htakes env
    have hlines' := CommandLine.lines_of_asksTokens hasks' htakes' env'
    refine ⟨hlines, fun hsame => ?_⟩
    exact Token.shown_of_dumps (hlines.symm.trans (hsame.trans hlines'))

section Apostrophe

def printSource (blank : Char) : String :=
  String.ofList ("PRINT".toList ++ blank :: "\"it's\"".toList)

def sourceFiles (blank : Char) : FileTree :=
  .single "a.teeny" (Text.encodeUtf8 (printSource blank))

def tokensWords : CommandLine.Words :=
  { options := [(.tokens, none)], arguments := ["a.teeny"] }

theorem splitWords_tokens :
    CommandLine.splitWords ["--tokens", "a.teeny"] = .ok tokensWords := by
  have hread : (CommandLine.splitWords ["--tokens", "a.teeny"]).toOption = some tokensWords := by
    decide +kernel
  cases hsplit : CommandLine.splitWords ["--tokens", "a.teeny"] with
  | error fault =>
    rw [hsplit] at hread
    cases hread
  | ok words =>
    rw [hsplit] at hread
    rw [Option.some.inj hread]

theorem tokensWords_valid (blank : Char) : tokensWords.Valid (sourceFiles blank) "a.teeny" where
  noHelp := rfl
  noVersion := rfl
  precision := by
    intro text htext
    cases htext
  output := by
    intro word hword
    cases hword
  arguments := rfl
  input := rfl

theorem asksTokens_source (blank : Char)
    (h : String.ofList (Text.unifyNewlines (printSource blank).toList) = printSource blank) :
    AsksTokens (sourceFiles blank) ["--tokens", "a.teeny"] "a.teeny" (printSource blank) :=
  ⟨tokensWords, splitWords_tokens, tokensWords_valid blank, rfl, printSource blank, rfl, h.symm⟩

/-- The listing of a text with an apostrophe, which stands between the other quotes. A tab instead
of the blank makes no difference in it, and none in the tokens. -/
theorem dumps_determine_tokens_apostrophe :
    Text.splitLines ((CommandLine.run {} {} ["--tokens", "a.teeny"] :
        StateM FileTree CommandLine.Report).run (sourceFiles ' ')).1.stdout =
      ["Token(PRINT, 'PRINT', 1:1)", "Token(STRING, \"it's\", 1:7)",
        "Token(NEWLINE, '\\n', 1:13)", "Token(EOF, '', 2:1)"] ∧
    (tokensOf "a.teeny" (printSource ' ')).map Token.shown =
      (tokensOf "a.teeny" (printSource '\t')).map Token.shown := by
  obtain ⟨-, -, hlistings⟩ := @dumps_determine_tokens FileTree FileTree _ _
  have hblank := asksTokens_source ' ' (by decide)
  have htab := asksTokens_source '\t' (by decide)
  have htakes (lines : List String) : CommandLine.Console.Takes {} "" lines :=
    CommandLine.Console.takes_of_silent (fun _ _ => rfl) "" lines
  obtain ⟨hlines, hsame⟩ := hlistings (sourceFiles ' ') (sourceFiles '\t') {} {} {} {} _ _ _ _ _ _
    hblank htab (htakes _) (htakes _)
  obtain ⟨hlines', -⟩ := hlistings (sourceFiles '\t') (sourceFiles ' ') {} {} {} {} _ _ _ _ _ _
    htab hblank (htakes _) (htakes _)
  have hdumps : (tokensOf "a.teeny" (printSource ' ')).map Token.dump =
      (tokensOf "a.teeny" (printSource '\t')).map Token.dump := by
    decide +kernel
  exact ⟨hlines.trans (by decide +kernel), hsame (hlines.trans (hdumps.trans hlines'.symm))⟩

end Apostrophe

end TeenyLang
