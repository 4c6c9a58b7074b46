/-!
# Queues

A queue keeps its entries in the order in which they came and refuses an entry
that equals one it has. It only ever grows at its end, so a reader with an index
into it can go on while it is being filled.
-/
namespace ChartParser

/-- Entries in order of insertion. -/
structure Queue (α : Type) where
  toList : List α

namespace Queue

variable {α : Type} [BEq α]

def empty : Queue α := ⟨[]⟩

def size (q : Queue α) : Nat := q.toList.length

def isEmpty (q : Queue α) : Bool := q.toList.isEmpty

def contains (q : Queue α) (a : α) : Bool := q.toList.contains a

def get? (q : Queue α) (i : Nat) : Option α := q.toList[i]?

/-- Appends `a` unless an equal entry is there; says whether it did. -/
def insert (q : Queue α) (a : α) : Bool × Queue α :=
  if q.contains a then (false, q) else (true, ⟨q.toList ++ [a]⟩)

theorem insert_of_contains {q : Queue α} {a : α} (h : q.contains a = true) : q.insert a = (false, q) := by
  simp [insert, h]

theorem insert_of_not_contains {q : Queue α} {a : α} (h : q.contains a = false) :
    q.insert a = (true, ⟨q.toList ++ [a]⟩) := by
  simp [insert, h]

/-- An insertion succeeds exactly when no equal entry is there. -/
theorem insert_fst (q : Queue α) (a : α) : (q.insert a).1 = !q.contains a := by
  unfold insert
  split <;> simp_all

end Queue

end ChartParser
