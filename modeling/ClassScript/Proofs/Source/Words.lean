import ClassScript.Proofs.Source.Lines
import ClassScript.Proofs.Syntax.Plain

/-!
# Names of programs

An identifier of a text is none of the keywords, so no variable, function or class
that a program names is called `this` or `super`.
-/

namespace ClassScript.Source

open Syntax

/-- A token that is an identifier is no reserved word. -/
def Token.WellNamed (token : Token) : Prop :=
  token.kind = .identifier → token.lexeme ∉ reserved

theorem not_reserved_of_lexeme {name : String} (word : Lexeme .identifier name.toList) :
    name ∉ reserved := by
  obtain ⟨_, _, _, _, _, kind⟩ := word.of_identifier
  intro special
  simp only [reserved, List.mem_cons, List.not_mem_nil, or_false] at special
  rcases special with rfl | rfl <;> exact absurd kind (by decide)

/-- No identifier of a text is a reserved word. -/
theorem wellNamed_tokens {text : String} {found : Tokens} (scanned : tokens text = .ok found) :
    ∀ token ∈ found.list, token.WellNamed := by
  intro token among identifier
  have word := lexeme_of_tokens scanned among
  rw [identifier] at word
  exact not_reserved_of_lexeme word

end ClassScript.Source
