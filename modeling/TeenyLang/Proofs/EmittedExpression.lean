import TeenyLang.Proofs.Acceptance
import TeenyLang.Proofs.CGrammar
import TeenyLang.Proofs.Correspondence
import TeenyLang.Proofs.ExpressionReading

set_option autoImplicit false

/-!
# What C reads in the text of an expression

The rule of expressions on the tokens of a source, at any place and after any calls on the parser,
also failed ones. What it has written is read by C as the tree of the tokens that it has passed
over, and as nothing else.
-/
namespace TeenyLang

open Grammar

namespace Parser

variable {σ : Type} [TokenSupply σ]

/-! ## Where an expression stops -/

theorem whileCurrent_last {test : Kind → Bool} {body : Rule σ Unit}
    {progress : ∀ p p', test p.current.kind = true → body p = .ok () p' → p'.size < p.size}
    {holds : Parser σ → Prop} (hbody : ∀ q q', body q = .ok () q' → holds q')
    {p p' : Parser σ} {a : Unit} (hp : holds p)
    (h : whileCurrent test body progress p = .ok a p') :
    holds p' ∧ test p'.current.kind = false := by
  induction p using WellFounded.induction (measure fun q : Parser σ => q.size).wf with
  | _ p ih =>
    cases htest : test p.current.kind with
    | false =>
      rw [whileCurrent_of_false htest] at h
      cases h
      exact ⟨hp, htest⟩
    | true =>
      rw [whileCurrent_of_true htest] at h
      obtain ⟨_, q, hq, hloop⟩ := bind_eq_ok h
      exact ih q (progress p q htest hq) (hbody p q hq) hloop

theorem term_stops {p p' : Parser σ} {a : Unit} (h : term p = .ok a p') :
    isFactorOperator p'.current.kind = false := by
  obtain ⟨_, q, _, h⟩ := bind_eq_ok h
  obtain ⟨_, r, _, h⟩ := bind_eq_ok h
  have hunary : ∀ q q' : Parser σ, operatorThen unary q = .ok () q' → True := fun _ _ _ => trivial
  exact (whileCurrent_last hunary trivial h).2

theorem expression_stops {p p' : Parser σ} {a : Unit} (h : expression p = .ok a p') :
    StopsExpression p'.current.kind := by
  obtain ⟨_, q, _, h⟩ := bind_eq_ok h
  obtain ⟨_, r, hterm, h⟩ := bind_eq_ok h
  have hlink : ∀ q q' : Parser σ, operatorThen term q = .ok () q' →
      isFactorOperator q'.current.kind = false := by
    intro q q' hlink
    obtain ⟨_, _, _, hlink⟩ := bind_eq_ok hlink
    obtain ⟨_, _, _, hlink⟩ := bind_eq_ok hlink
    exact term_stops hlink
  exact whileCurrent_last hlink (term_stops hterm) h

/-! ## What an expression writes -/

end Parser

namespace Grammar

theorem Chain.uses_read {operators : List Kind} {α : Type} {uses : α → List Use}
    (h : ∀ a, ∀ u ∈ uses a, u.role = .read) (c : Chain operators α) :
    ∀ u ∈ c.uses uses, u.role = .read := by
  rw [Chain.uses, List.forall_mem_append]
  refine ⟨h _, fun u hu => ?_⟩
  obtain ⟨link, _, hu⟩ := List.mem_flatMap.1 hu
  exact h _ u hu

theorem Expression.uses_read (e : Expression) : ∀ u ∈ Expression.uses e, u.role = .read := by
  refine Chain.uses_read (fun t => Chain.uses_read (fun u => ?_) t) e
  obtain ⟨sign, operand⟩ := u
  cases operand with
  | number t | ident t => simp [Unary.uses, Primary.uses]

end Grammar

/-- Reading variables changes nothing in a record. -/
theorem Record.useAll_reads {r r' : Record} {uses : List Use} (hreads : ∀ u ∈ uses, u.role = .read)
    (h : r.useAll uses = .ok r') : r' = r := by
  induction uses with
  | nil =>
    cases h
    rfl
  | cons u uses ih =>
    obtain ⟨hu, hreads⟩ := List.forall_mem_cons.1 hreads
    have huse : r.use u = if r.variableNames.contains u.name then .ok r
        else .error (r.fault u.token (.undeclaredVariable u.name (r.similar u.name))) := by
      rw [use, hu]
    rw [useAll, List.foldlM_cons, huse] at h
    by_cases hdeclared : r.variableNames.contains u.name
    · rw [if_pos hdeclared] at h
      exact ih hreads h
    · rw [if_neg hdeclared] at h
      cases h

namespace Parser

variable {σ : Type} [TokenSupply σ]

theorem expression_writes {p p' : Parser σ} (hrun : expression p = .ok () p') {e : Expression}
    (hpass : Passes p.lookahead (Expression.tokens e) p'.lookahead) :
    p'.listing = p.listing.code (Expression.code e) := by
  have hends := ends_expression e hpass (expression_stops hrun)
  rw [hrun] at hends
  unfold Record.run at hends
  cases huses : p.record.useAll (Expression.uses e) with
  | error d =>
    rw [huses] at hends
    obtain ⟨_, hq⟩ := hends
    cases hq
  | ok r =>
    rw [huses] at hends
    obtain ⟨_, hq, _, hrecord⟩ := hends
    cases hq
    rw [Record.useAll_reads (Expression.uses_read e) huses] at hrecord
    exact congrArg Record.listing hrecord

/-! ## Tokens of a source -/

def after (p : Parser σ) (calls : List Call) : Parser σ :=
  calls.foldl (fun q call => (q.perform call).2) p

theorem perform_eq_ending (p : Parser σ) (call : Call) :
    (p.perform call).2 = ending ((call.rule : Rule σ Answer) p) := by
  unfold perform
  cases (call.rule : Rule σ Answer) p <;> rfl

theorem holds_after {holds : Lookahead σ → Prop}
    (hadvance : Keeps holds (advance : Rule σ Token)) (calls : List Call) {p : Parser σ}
    (hp : holds p.lookahead) : holds (p.after calls).lookahead := by
  induction calls generalizing p with
  | nil => exact hp
  | cons call calls ih =>
    refine ih ?_
    change holds (p.perform call).2.lookahead
    rw [perform_eq_ending]
    exact (performs_call call p).keeps hadvance hp

def Scanned (t : Token) : Prop :=
  Written t ∨ t.kind = .endOfInput

theorem scanned_next {s s' : Scanner} {t : Token} (h : Scanner.next s = .ok t s') :
    Scanned t := by
  unfold Scanner.next at h
  simp only at h
  split at h
  · next kind text length hlexeme =>
    cases h
    by_cases hrest : (s.cursor.advanceBy (Lexeme.gap s.cursor.rest).length).rest = []
    · rw [hrest] at hlexeme
      cases hlexeme
      exact .inr rfl
    · obtain ⟨lexeme, _, _, _, hspells, _⟩ := Lexical.readLexeme_begins hlexeme hrest
      exact .inl ⟨lexeme, hspells⟩
  · cases h

def BothScanned (l : Lookahead Scanner) : Prop :=
  Scanned l.current ∧ Scanned l.peek

theorem keeps_bothScanned : Keeps BothScanned (advance : Rule Scanner Token) := by
  rintro p ⟨_, hpeek⟩
  unfold advance
  split
  · next t s hpull => exact ⟨hpeek, scanned_next hpull⟩
  · exact ⟨hpeek, hpeek⟩

theorem BothScanned.passes {l m : Lookahead Scanner} {ts : List Token} (hl : BothScanned l)
    (h : Passes l ts m) : ∀ t ∈ ts, Scanned t := by
  induction h with
  | nil => simp
  | cons pull _ ih =>
    exact List.forall_mem_cons.2 ⟨hl.1, ih ⟨hl.2, scanned_next pull⟩⟩

theorem bothScanned_ofSource {source file : String} {precision : Int} {p : Parser Scanner}
    (h : ofSource source file precision = .ok p) : BothScanned p.lookahead := by
  obtain ⟨hfill, _⟩ := start_eq_ok h
  obtain ⟨_, t, s, hfirst, hfill⟩ := Passes.cons_iff.1 hfill
  obtain ⟨_, u, s', hsecond, hfill⟩ := Passes.cons_iff.1 hfill
  cases Passes.nil_iff.1 hfill
  exact ⟨scanned_next hfirst, scanned_next hsecond⟩

end Parser

/-- An expression that is read anywhere among the tokens of a source, whatever the parser has done
before, writes a text that C reads as the tree of the tokens passed over and in no other way. -/
theorem expression_readsAs {source file : String} {precision : Int} {start p p' : Parser Scanner}
    (hstart : Parser.ofSource source file precision = .ok start) (calls : List Parser.Call)
    (hp : p.lookahead = (start.after calls).lookahead) (hrun : Parser.expression p = .ok () p') :
    ∃ text, p'.listing = p.listing.code text ∧
      (∃ e, Passes p.lookahead (Expression.tokens e) p'.lookahead) ∧
      ∀ e, Passes p.lookahead (Expression.tokens e) p'.lookahead →
        ∀ x, C.ReadsAs text x ↔ x = Expression.tree e := by
  obtain ⟨e, hpass⟩ := Parser.expression_passes hrun
  have hscanned : Parser.BothScanned p.lookahead := by
    rw [hp]
    exact Parser.holds_after Parser.keeps_bothScanned calls (Parser.bothScanned_ofSource hstart)
  refine ⟨Expression.code e, Parser.expression_writes hrun hpass, ⟨e, hpass⟩, ?_⟩
  intro e' hpass' x
  have hwritten : ∀ t ∈ Expression.tokens e', Written t := fun t ht =>
    (hscanned.passes hpass' t ht).resolve_right (Expression.tokens_ne e' t ht)
  have hcode : Expression.code e = Expression.code e' := by
    have hsame := (Parser.expression_writes hrun hpass).symm.trans
      (Parser.expression_writes hrun hpass')
    simpa [Target.Listing.code] using hsame
  rw [hcode, ← C.read_iff_readsAs, Expression.read hwritten, Option.some.injEq, eq_comm]

section Signs

/-- A call that fails, the declaration of `x` and a move past the first word. -/
def signCalls : List Parser.Call :=
  [.expect .newline, .declare "x", .advance]

def signBodies : Option (String × String) :=
  match Parser.ofSource "PRINT 1 - -x / +03" "signs" 2 with
  | .error _ => none
  | .ok start =>
    match Parser.expression (start.after signCalls) with
    | .error _ _ => none
    | .ok _ p => some ((start.after signCalls).listing.body, p.listing.body)

theorem expression_readsAs_signs :
    ∃ start p, Parser.ofSource "PRINT 1 - -x / +03" "signs" 2 = .ok start ∧
      Parser.expression (start.after signCalls) = .ok () p ∧
      p.listing = (start.after signCalls).listing.code "1 - -t_x / +3" ∧
      ∀ x, C.ReadsAs "1 - -t_x / +3" x ↔
        x = .binary .minus (.constant ['1']) (.binary .slash
          (.signed .minus (.named ['t', '_', 'x'])) (.signed .plus (.constant ['3']))) := by
  have hbodies : signBodies = some ("", "1 - -t_x / +3") := by decide +kernel
  have hread : C.read "1 - -t_x / +3" = some (.binary .minus (.constant ['1'])
      (.binary .slash (.signed .minus (.named ['t', '_', 'x']))
        (.signed .plus (.constant ['3'])))) := by decide +kernel
  unfold signBodies at hbodies
  split at hbodies
  · cases hbodies
  next start hstart =>
  split at hbodies
  · cases hbodies
  next p hrun =>
  obtain ⟨text, hlisting, ⟨e, hpass⟩, hall⟩ := expression_readsAs hstart signCalls rfl hrun
  simp only [Option.some.injEq, Prod.mk.injEq] at hbodies
  obtain rfl : text = "1 - -t_x / +3" := by
    have hbody := congrArg Target.Listing.body hlisting
    rw [hbodies.2, Target.Listing.code, hbodies.1] at hbody
    simpa using hbody.symm
  refine ⟨start, p, hstart, hrun, hlisting, fun x => ?_⟩
  rw [hall e hpass x, (hall e hpass _).1 (C.read_iff_readsAs.1 hread)]

end Signs

end TeenyLang
