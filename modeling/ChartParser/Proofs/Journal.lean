import Mathlib.Data.List.DropRight
import ChartParser.Journal
/-!
# What a journal has since the parse was last started

A parse that starts over goes on in the same journal. `Journal.insertions` are the chart
entries, with their locations, that came after this.
-/
namespace ChartParser

namespace LogEntry

variable {α : Type}

def isRestart : LogEntry α → Bool
  | .restarted _ => true
  | _ => false

def isTransition : LogEntry α → Bool
  | .inserted .transition .. => true
  | _ => false

end LogEntry

namespace Journal

variable {α : Type} (journal : Journal α)

/-- The entries since the parse was last started. -/
def latest : List (LogEntry α) := journal.toList.rtakeWhile (!·.isRestart)

/-- What was inserted since then, with its locations. -/
def insertions : List (Nat × α) := (latest journal).filterMap LogEntry.insertion?

/-- The number of memoized paths inserted since then. -/
def transitions : Nat := (latest journal).countP LogEntry.isTransition

theorem latest_push {entry : LogEntry α} (h : entry.isRestart = false) :
    latest (journal.push entry) = latest journal ++ [entry] := by
  simp [latest, h]

@[simp] theorem latest_push_restarted (k : Nat) : latest (journal.push (.restarted k)) = [] := by
  simp [latest, LogEntry.isRestart]

@[simp] theorem insertions_push_inserted (op : Operation) (k : Nat) (a : α) :
    insertions (journal.push (.inserted op k a)) = insertions journal ++ [(k, a)] := by
  rw [insertions, latest_push journal rfl, List.filterMap_append]
  rfl

@[simp] theorem transitions_push_inserted (op : Operation) (k : Nat) (a : α) :
    transitions (journal.push (.inserted op k a)) = transitions journal + if op = .transition then 1 else 0 := by
  rw [transitions, latest_push journal rfl, List.countP_append]
  cases op <;> rfl

/-- Other entries tell of no insertion. -/
theorem insertions_push {entry : LogEntry α} (h : entry.isRestart = false) (hnone : entry.insertion? = none) :
    insertions (journal.push entry) = insertions journal := by
  rw [insertions, latest_push journal h, List.filterMap_append]
  simp [hnone, insertions]

theorem transitions_push {entry : LogEntry α} (h : entry.isRestart = false) (hnone : entry.insertion? = none) :
    transitions (journal.push entry) = transitions journal := by
  have hentry : entry.isTransition = false := by
    cases entry with
    | inserted => cases hnone
    | _ => rfl
  rw [transitions, latest_push journal h, List.countP_append]
  simp [hentry, transitions]

end Journal

end ChartParser
