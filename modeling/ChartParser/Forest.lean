import ChartParser.DottedRule
/-!
# Forest builders

A forest builder watches the dots of a parse move. For each move it may give a
node, which then travels with the moved state; to the parse itself nodes mean
nothing. The builder is also told of moves that lead to a state the chart has
already, so it can collect all derivations of an item that the chart keeps once.
-/
namespace ChartParser

/-- A node of a parse forest, by its number. -/
structure ForestNode where
  id : Nat
deriving DecidableEq

def ForestNode.render (n : ForestNode) : String := "#" ++ toString n.id

/-- What the dot moved over. -/
inductive Crossing where
  | token (t : Token)
  /-- A non-terminal that was recognized from `origin` up to the place of the
  move. -/
  | completed (A : NonTerminal) (origin : Nat) (node : Option ForestNode)
  /-- A nullable non-terminal, without input. -/
  | empty (A : NonTerminal)
  /-- A whole chain of moves, from the completion of `A` in set `origin` to the
  top of its memoized path. The moves in between are not made; each is the move
  of the only state that waits for the last left-hand side in its set. -/
  | transitive (A : NonTerminal) (origin : Nat) (node : Option ForestNode)
deriving DecidableEq

/-- One move of a dot. -/
structure DotMove where
  /-- The rule after the move. -/
  rule : DottedRule
  origin : Nat
  location : Nat
  /-- The node of the state before the move. -/
  parent : Option ForestNode
  crossed : Crossing
deriving DecidableEq

/-- A forest under construction has a state of type `σ`. -/
structure ForestBuilder (σ : Type) where
  /-- The node for a move, and the state after it. -/
  attach : DotMove → σ → Option ForestNode × σ

/-- The builder that builds nothing. -/
def ForestBuilder.none : ForestBuilder Unit := ⟨fun _ s => (Option.none, s)⟩

end ChartParser
