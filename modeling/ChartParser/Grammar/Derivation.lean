import ChartParser.Grammar.Basic
/-!
# Derivations

What the productions of a grammar derive, up to the types of its terminals. A
sentence is a word of token types that the start symbol derives.
-/
namespace ChartParser

/-- `v` comes from `u` by replacing, any number of times, the left-hand side of
a production by its right-hand side. -/
inductive Derives (productions : List Production) (u : List Letter) : List Letter → Prop
  | refl : Derives productions u u
  | step {x y : List Letter} {p : Production} (hp : p ∈ productions)
      (h : Derives productions u (x ++ .nonTerminal p.lhs :: y)) :
      Derives productions u (x ++ p.rhs.map Symbol.letter ++ y)

namespace Derives

variable {productions : List Production} {u v w : List Letter}

theorem trans (h₁ : Derives productions u v) (h₂ : Derives productions v w) : Derives productions u w := by
  induction h₂ with
  | refl => exact h₁
  | step hp _ ih => exact .step hp ih

/-- A non-terminal derives the right-hand side of each of its productions. -/
theorem of_mem {p : Production} (hp : p ∈ productions) :
    Derives productions [.nonTerminal p.lhs] (p.rhs.map Symbol.letter) := by
  simpa using Derives.step (x := []) (y := []) hp .refl

/-- A derivation goes on in any surroundings. -/
theorem between (x y : List Letter) (h : Derives productions u v) :
    Derives productions (x ++ u ++ y) (x ++ v ++ y) := by
  induction h with
  | refl => exact .refl
  | @step x' y' p hp _ ih =>
    have := Derives.step (x := x ++ x') (y := y' ++ y) hp (by simpa using ih)
    simpa using this

theorem append {u' v' : List Letter} (h : Derives productions u v) (h' : Derives productions u' v') :
    Derives productions (u ++ u') (v ++ v') := by
  have h₁ : Derives productions (u ++ u') (v ++ u') := by simpa using h.between [] u'
  have h₂ : Derives productions (v ++ u') (v ++ v') := by simpa using h'.between v []
  exact h₁.trans h₂

end Derives

/-- The start symbol derives the word. -/
def Grammar.Sentence (g : Grammar) (word : List TokenType) : Prop :=
  Derives g.productions [.nonTerminal g.start] (word.map .token)

end ChartParser
