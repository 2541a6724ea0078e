import TeenyLang.Proofs.PassedTexts

set_option autoImplicit false

/-!
# Trees of runs

A rule that ends well has passed over the tokens of a tree of its symbol: its language is that of
the trees.
-/
namespace TeenyLang.Parser

open Grammar

variable {σ : Type} [TokenSupply σ]

theorem expression_passes {p p' : Parser σ} {a : Unit} (h : expression p = .ok a p') :
    ∃ e : Expression, Passes p.lookahead (Expression.tokens e) p'.lookahead := by
  obtain ⟨_, ⟨e, rfl⟩, hpass⟩ :=
    (performs_expression p).passes passive_expressionItems expressionItems_le h
  exact ⟨e, hpass⟩

theorem skipNewlines_passes {p p' : Parser σ} {a : Unit} (h : skipNewlines p = .ok a p') :
    ∃ items : List (Leaf [.newline]),
      Passes p.lookahead (items.map Subtype.val) p'.lookahead := by
  obtain ⟨ts, hts, hpass⟩ := (performs_leading p).passes (by simp) (texts_look _).le h
  obtain ⟨items, rfl⟩ := exists_leaves_of_kstar hts
  exact ⟨items, hpass⟩

theorem statement_passes {p p' : Parser σ} {a : Unit} (h : statement p = .ok a p') :
    ∃ s : Statement, Passes p.lookahead s.tokens p'.lookahead := by
  have hperforms : Performs [.look .statement] p (statement p) :=
    performs_statement fun terminator q _ => performs_block terminator q
  obtain ⟨_, ⟨s, rfl⟩, hpass⟩ := hperforms.passes (by simp) (texts_look _).le h
  exact ⟨s, hpass⟩

theorem block_passes {terminator : Kind} {p p' : Parser σ} {a : Unit}
    (h : block terminator p = .ok a p') :
    (∃ body : List Statement, Passes p.lookahead (bodyTokens body) p'.lookahead) ∧
      p'.current.kind = terminator := by
  obtain ⟨ts, hts, hpass⟩ := (performs_block terminator p).passes (by simp) (texts_look _).le h
  obtain ⟨body, rfl⟩ := exists_flatMap_of_kstar hts
  rw [← bodyTokens_eq_flatMap] at hpass
  exact ⟨⟨body, hpass⟩, by simpa using whileCurrent_stops h⟩

/-- What an opening has passed over: a statement, or the part of one before its block. -/
def Opened (l : Lookahead σ) (l' : Lookahead σ) : Option Kind → Prop
  | none => ∃ s : Statement, Passes l s.tokens l'
  | some terminator => ∃ (form : BlockForm) (word : Leaf [.keyword form.opener])
      (condition : Comparison) (follower : Leaf [.keyword form.follower]) (gap : Newlines),
      terminator = .keyword form.closer ∧
        Passes l (openingTokens word condition follower gap) l'

theorem opening_passes {p p' : Parser σ} {opened : Option Kind}
    (h : opening p = .ok opened p') : Opened p.lookahead p'.lookahead opened := by
  have htidy := tidy_openingItems p.current
  obtain rfl := blockEnd_of_opening h
  cases hend : blockEnd p.current.kind with
  | none =>
    obtain ⟨_, ⟨s, rfl⟩, hpass⟩ :=
      (performs_opening p).passes_tidy htidy (openingItems_of_none hend) h
    exact ⟨s, hpass⟩
  | some terminator =>
    obtain ⟨form, hform, rfl⟩ := blockEnd_eq_some hend
    obtain ⟨ts, hts, hpass⟩ :=
      (performs_opening p).passes_tidy htidy (openingItems_of_form form hform) h
    obtain ⟨_, ⟨word, rfl⟩, _, htested, rfl⟩ := Language.mem_mul.1 hts
    obtain ⟨_, ⟨condition, rfl⟩, _, hopened, rfl⟩ := Language.mem_mul.1 htested
    obtain ⟨_, ⟨follower, rfl⟩, _, ⟨gap, rfl⟩, rfl⟩ := Language.mem_mul.1 hopened
    exact ⟨form, word, condition, follower, gap, rfl, hpass⟩

end TeenyLang.Parser
