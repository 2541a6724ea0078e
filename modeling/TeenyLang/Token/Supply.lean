import TeenyLang.Diagnostic
import TeenyLang.Token

set_option autoImplicit false

/-!
# Token supplies

Where a parser gets its tokens from. A pull gives a token or a diagnostic, and in either
case a supply to go on with. A supply has a size that no successful pull increases and that
every token but the end of the input decreases, so that only finitely many tokens come
before the end.
-/
namespace TeenyLang

class TokenSupply (σ : Type) where
  /-- The next token. -/
  pull : EStateM Diagnostic σ Token
  /-- A bound on the number of tokens before the end of the input. -/
  remaining : σ → Nat
  pull_le : ∀ {s s' : σ} {t : Token}, pull s = .ok t s' → remaining s' ≤ remaining s
  pull_lt : ∀ {s s' : σ} {t : Token}, pull s = .ok t s' → t.kind ≠ .endOfInput →
    remaining s' < remaining s

end TeenyLang
