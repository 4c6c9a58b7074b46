import ChartParser.Fault
import ChartParser.Item
import ChartParser.Queue
/-!
# Item sets

The states at one location, split by what they ask for: predictions wait for a
non-terminal, scans for a terminal, completions for nothing. Memoized paths are
kept apart as transitions.
-/
namespace ChartParser

/-- The queue that a state belongs to. -/
inductive Lane where
  | predictions
  | scans
  | completions
  | transitions
deriving DecidableEq

/-- The symbol after the dot chooses the queue. A transitive state over an
incomplete rule has none. -/
def Item.lane (i : Item) : Except Fault Lane :=
  match i.rule.postDot?, i.kind with
  | none, .normal => .ok .completions
  | none, .transitive _ => .ok .transitions
  | some _, .transitive _ => .error (.incompleteTransitive i.rule)
  | some (.nonTerminal _), .normal => .ok .predictions
  | some (.terminal _), .normal => .ok .scans

namespace Item

variable {i : Item}

theorem lane_eq_predictions_iff :
    i.lane = .ok .predictions ↔ i.kind = .normal ∧ ∃ A, i.rule.postDot? = some (.nonTerminal A) := by
  unfold lane
  split <;> simp_all

theorem lane_eq_scans_iff :
    i.lane = .ok .scans ↔ i.kind = .normal ∧ ∃ l, i.rule.postDot? = some (.terminal l) := by
  unfold lane
  split <;> simp_all

theorem lane_eq_completions_iff :
    i.lane = .ok .completions ↔ i.kind = .normal ∧ i.rule.isComplete = true := by
  rw [← DottedRule.postDot?_eq_none_iff]
  unfold lane
  split <;> simp_all

theorem lane_eq_transitions_iff :
    i.lane = .ok .transitions ↔ (∃ A, i.kind = .transitive A) ∧ i.rule.isComplete = true := by
  rw [← DottedRule.postDot?_eq_none_iff]
  unfold lane
  split <;> simp_all

theorem exists_lane (h : i.kind = .normal) : ∃ l, i.lane = .ok l ∧ l ≠ .transitions := by
  unfold lane
  split <;> simp_all

theorem kind_of_lane {l : Lane} (h : i.lane = .ok l) (hl : l ≠ .transitions) : i.kind = .normal := by
  cases l with
  | predictions => exact (lane_eq_predictions_iff.1 h).1
  | scans => exact (lane_eq_scans_iff.1 h).1
  | completions => exact (lane_eq_completions_iff.1 h).1
  | transitions => exact absurd rfl hl

end Item

/-- The states at one location. -/
structure ItemSet where
  location : Nat
  predictions : Queue State
  scans : Queue State
  completions : Queue State
  transitions : Queue State

namespace ItemSet

def empty (location : Nat) : ItemSet := ⟨location, .empty, .empty, .empty, .empty⟩

/-- The queue of a lane. -/
def queue (set : ItemSet) : Lane → Queue State
  | .predictions => set.predictions
  | .scans => set.scans
  | .completions => set.completions
  | .transitions => set.transitions

/-- The set with another queue in a lane. -/
def withQueue (set : ItemSet) (lane : Lane) (q : Queue State) : ItemSet :=
  match lane with
  | .predictions => { set with predictions := q }
  | .scans => { set with scans := q }
  | .completions => { set with completions := q }
  | .transitions => { set with transitions := q }

/-- Inserts a state into the queue it belongs to; says whether it was new. -/
def insert (set : ItemSet) (s : State) : Except Fault (Bool × ItemSet) := do
  let lane ← s.lane
  let (new, q) := (set.queue lane).insert s
  return (new, set.withQueue lane q)

def size (set : ItemSet) : Nat :=
  set.predictions.size + set.scans.size + set.completions.size + set.transitions.size

def isEmpty (set : ItemSet) : Bool := set.size = 0

/-- All states, queue by queue. -/
def states (set : ItemSet) : List State :=
  set.predictions.toList ++ set.scans.toList ++ set.completions.toList ++ set.transitions.toList

/-- The states that wait for `A`, in order of insertion. -/
def waiting (set : ItemSet) (A : NonTerminal) : List State := set.predictions.toList.filter (·.waitsFor A)

/-- The state that waits for `A`, if there is exactly one. -/
def soleWaiting? (set : ItemSet) (A : NonTerminal) : Option State :=
  match set.waiting A with
  | [s] => some s
  | _ => none

/-- The first memoized path for `A`. -/
def transition? (set : ItemSet) (A : NonTerminal) : Option State :=
  set.transitions.toList.find? (·.kind = .transitive A)

/-- The location on a line of its own, then each state. -/
def render (set : ItemSet) : String :=
  "== " ++ toString set.location ++ " ==\n" ++ String.join (set.states.map (·.render ++ "\n"))

/-! ## What an insertion does -/

@[simp] theorem queue_withQueue (set : ItemSet) (lane other : Lane) (q : Queue State) :
    (set.withQueue lane q).queue other = if other = lane then q else set.queue other := by
  cases lane <;> cases other <;> rfl

@[simp] theorem location_withQueue (set : ItemSet) (lane : Lane) (q : Queue State) :
    (set.withQueue lane q).location = set.location := by
  cases lane <;> rfl

/-- Only the queue the state belongs to changes, and only at its end. -/
theorem queue_of_insert {set set' : ItemSet} {s : State} {new : Bool} (h : set.insert s = .ok (new, set')) :
    ∃ lane, s.lane = .ok lane ∧ new = !(set.queue lane).contains s ∧ set'.location = set.location ∧
      ∀ other, set'.queue other =
        if other = lane ∧ new then ⟨(set.queue other).toList ++ [s]⟩ else set.queue other := by
  obtain ⟨lane, hl, h⟩ := bind_eq_ok_iff.1 h
  simp only [pure, Except.pure, Except.ok.injEq, Prod.mk.injEq] at h
  obtain ⟨rfl, rfl⟩ := h
  refine ⟨lane, hl, Queue.insert_fst _ _, by simp, fun other => ?_⟩
  by_cases ho : other = lane
  · subst ho
    cases hc : (set.queue other).contains s
    · simp [Queue.insert_of_not_contains hc]
    · simp [Queue.insert_of_contains hc]
  · simp [ho]

theorem mem_waiting {set : ItemSet} {A : NonTerminal} {s : State} :
    s ∈ set.waiting A ↔ s ∈ set.predictions.toList ∧ s.rule.postDot? = some (.nonTerminal A) := by
  simp [waiting, State.waitsFor]

end ItemSet

end ChartParser
