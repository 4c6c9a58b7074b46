import ChartParser.Fault
import ChartParser.ItemSet
/-!
# Charts

A chart has one set for each location, from 0 on. Sets are added at the end
only, by the first insertion at the location that follows.
-/
namespace ChartParser

/-- The sets of type `S` at locations 0, 1, 2, ... -/
structure Chart (S : Type) where
  sets : List S

namespace Chart

variable {S : Type}

def empty : Chart S := ⟨[]⟩

/-- The number of locations that have a set. -/
def size (c : Chart S) : Nat := c.sets.length

def isEmpty (c : Chart S) : Bool := c.sets.isEmpty

def get? (c : Chart S) (location : Nat) : Option S := c.sets[location]?

/-- The set at `location`. -/
def get (c : Chart S) (location : Nat) : Except Fault S := fetch c.sets location

/-- The chart with a set at `location`, added as `fresh` if the chart ends
there. -/
def reach (c : Chart S) (location : Nat) (fresh : S) : Except Fault (Chart S) :=
  if location < c.size then .ok c
  else if location = c.size then .ok ⟨c.sets ++ [fresh]⟩
  else .error (.beyondEnd location c.size)

/-- Changes the set at `location`, adding it first if the chart ends there.
When the change fails the set is left as it was, but an added set stays. -/
def update (c : Chart S) (location : Nat) (fresh : S) (change : S → Except Fault (Bool × S)) :
    Except Fault Bool × Chart S :=
  match c.reach location fresh with
  | .error e => (.error e, c)
  | .ok c =>
    match c.get location >>= change with
    | .error e => (.error e, c)
    | .ok (new, set) => (.ok new, ⟨c.sets.set location set⟩)

/-- The number of entries of all sets. -/
def total (c : Chart S) (size : S → Nat) : Nat := c.sets.foldr (fun set n => size set + n) 0

/-- Inserts a state at `location`; says whether it was new. -/
def insert (c : Chart ItemSet) (location : Nat) (s : State) : Except Fault Bool × Chart ItemSet :=
  c.update location (.empty location) (·.insert s)

def totalStates (c : Chart ItemSet) : Nat := c.total ItemSet.size

def render (c : Chart ItemSet) : String := String.join (c.sets.map ItemSet.render)

/-! ## What a change does -/

theorem reach_of_lt {c : Chart S} {location : Nat} (h : location < c.size) (fresh : S) :
    c.reach location fresh = .ok c := by
  simp [reach, h]

theorem reach_at_end (c : Chart S) (fresh : S) : c.reach c.size fresh = .ok ⟨c.sets ++ [fresh]⟩ := by
  simp [reach]

/-- A set can only be reached up to the end of the chart. -/
theorem reach_eq_error_iff {c : Chart S} {location : Nat} {fresh : S} {e : Fault} :
    c.reach location fresh = .error e ↔ c.size < location ∧ e = .beyondEnd location c.size := by
  unfold reach
  split
  · simp only [reduceCtorEq, false_iff, not_and]
    omega
  · split
    · simp only [reduceCtorEq, false_iff, not_and]
      omega
    · simp only [Except.error.injEq]
      constructor
      · rintro rfl
        exact ⟨by omega, rfl⟩
      · rintro ⟨-, rfl⟩
        rfl

/-- A change at a location leaves all other sets as they are. -/
theorem get?_update_of_ne {c : Chart S} {location other : Nat} {fresh : S}
    {change : S → Except Fault (Bool × S)} (ho : other < c.size) (h : other ≠ location) :
    (c.update location fresh change).2.get? other = c.get? other := by
  have hr : ∀ c', c.reach location fresh = .ok c' → c'.get? other = c.get? other := by
    intro c' hc
    unfold reach at hc
    split at hc
    · cases hc; rfl
    · split at hc
      · cases hc
        simp only [get?]
        exact List.getElem?_append_left ho
      · cases hc
  unfold update
  split
  · rfl
  · rename_i c' hc
    split
    · exact hr c' hc
    · simp only [get?]
      rw [List.getElem?_set_ne (Ne.symm h)]
      exact hr c' hc

end Chart

end ChartParser
