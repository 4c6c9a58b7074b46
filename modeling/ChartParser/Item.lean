import ChartParser.Forest
/-!
# Items

An item says that a dotted rule has been recognized up to its dot, from the
item's origin to the place where it is kept. A state is an item with the forest
node it carries.
-/
namespace ChartParser

/-- How an item came about. -/
inductive ItemKind where
  | normal
  /-- A memoized path: once `recognized` is completed here, the item's complete
  rule is, too. -/
  | transitive (recognized : NonTerminal)
deriving DecidableEq

/-- A dotted rule and where its recognition began. -/
structure Item where
  rule : DottedRule
  origin : Nat
  kind : ItemKind
deriving DecidableEq

namespace Item

def recognized? (i : Item) : Option NonTerminal :=
  match i.kind with
  | .normal => none
  | .transitive A => some A

def isTransitive (i : Item) : Bool := i.recognized?.isSome

def render (i : Item) : String :=
  let body := "(" ++ i.rule.render ++ ", " ++ toString i.origin ++ ")"
  match i.kind with
  | .normal => body
  | .transitive A => A.name ++ " : " ++ body

theorem recognized?_eq_some_iff {i : Item} {A : NonTerminal} : i.recognized? = some A ↔ i.kind = .transitive A := by
  unfold recognized?
  split <;> simp_all

end Item

/-- An item and its node. The node takes no part in comparisons, so a chart
keeps one state for an item, whatever derivations it has. -/
structure State extends Item where
  node : Option ForestNode

namespace State

instance : BEq State := ⟨fun a b => a.toItem == b.toItem⟩

def normal (rule : DottedRule) (origin : Nat) (node : Option ForestNode) : State :=
  ⟨⟨rule, origin, .normal⟩, node⟩

def transitive (recognized : NonTerminal) (rule : DottedRule) (origin : Nat) : State :=
  ⟨⟨rule, origin, .transitive recognized⟩, none⟩

/-- The normal state with the dot moved over one symbol, carrying `node`. -/
def next? (s : State) (node : Option ForestNode) : Option State :=
  s.rule.advance?.map fun rule => normal rule s.origin node

/-- The symbol after the state's dot is `A`. -/
def waitsFor (A : NonTerminal) (s : State) : Bool := s.rule.postDot? = some (.nonTerminal A)

/-- The symbol after the state's dot is a terminal of type `t`. -/
def expects (t : TokenType) (s : State) : Bool := s.rule.postDotLexerRule?.any (·.tokenType = t)

@[simp] theorem beq_iff {a b : State} : (a == b) = true ↔ a.toItem = b.toItem := by
  show (a.toItem == b.toItem) = true ↔ _
  simp

end State

end ChartParser
