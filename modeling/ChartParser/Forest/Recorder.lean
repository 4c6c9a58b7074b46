import ChartParser.Forest
/-!
# Recording builders

Builders that number nodes by a simple rule and keep a record of all moves
with the nodes they answered.
-/
namespace ChartParser

/-- How a recording builder numbers its nodes, from 0 on. -/
inductive Numbering where
  /-- One node for each production, position, origin and location. -/
  | shared
  /-- A new node for every move. -/
  | fresh
  /-- A new node for every move over a token or a completed non-terminal, and
  none for the others. -/
  | sparse
deriving DecidableEq

/-- What the nodes of shared numbering are known by. -/
structure NodeKey where
  production : ProductionId
  position : Nat
  origin : Nat
  location : Nat
deriving DecidableEq

def DotMove.key (m : DotMove) : NodeKey := ⟨m.rule.production, m.rule.position, m.origin, m.location⟩

/-- The numbers given out so far and the moves seen, with their nodes. -/
structure Recording where
  keys : List NodeKey
  used : Nat
  moves : Array (DotMove × Option ForestNode)

namespace Recording

def empty : Recording := ⟨[], 0, #[]⟩

/-- The node that a numbering gives to a move, and the numbers used afterwards. -/
def number (numbering : Numbering) (m : DotMove) (r : Recording) : Option ForestNode × Recording :=
  match numbering, m.crossed with
  | .shared, _ =>
    (some ⟨r.keys.idxOf m.key⟩, if m.key ∈ r.keys then r else { r with keys := r.keys ++ [m.key] })
  | .sparse, .empty _ => (none, r)
  | .sparse, .transitive .. => (none, r)
  | _, _ => (some ⟨r.used⟩, { r with used := r.used + 1 })

/-- Numbers a move and keeps it. -/
def record (numbering : Numbering) (m : DotMove) (r : Recording) : Option ForestNode × Recording :=
  match r.number numbering m with
  | (node, r) => (node, { r with moves := r.moves.push (m, node) })

end Recording

/-- The builder that numbers nodes and records every move. -/
def ForestBuilder.recording (numbering : Numbering) : ForestBuilder Recording :=
  ⟨fun m r => r.record numbering m⟩

end ChartParser
