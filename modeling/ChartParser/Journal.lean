/-!
# Journals

A parser keeps a journal of what it does: every new entry of its chart, and
every token list it was offered. Refused duplicates leave no trace.
-/
namespace ChartParser

/-- The operation that inserted an entry. -/
inductive Operation where
  | start
  | predict
  | scan
  | complete
  | transition
deriving DecidableEq

def Operation.name : Operation → String
  | .start => "start"
  | .predict => "predict"
  | .scan => "scan"
  | .complete => "complete"
  | .transition => "transition"

/-- How much detail a journal entry gives. -/
inductive Level where
  | trace
  | debug
deriving DecidableEq

def Level.name : Level → String
  | .trace => "TRACE"
  | .debug => "DEBUG"

/-- A journal entry of a parser whose chart holds entries of type `α`. -/
inductive LogEntry (α : Type) where
  /-- A new chart entry. -/
  | inserted (operation : Operation) (location : Nat) (entry : α)
  /-- None of `tokens` tokens could be scanned. -/
  | rejected (location tokens : Nat)
  /-- The parser moved on to `location`, where it now has `states` entries. -/
  | advanced (location states : Nat)
  /-- The parser started over, giving up `location`. -/
  | restarted (location : Nat)
  /-- A grammar was compiled into frames. -/
  | compiled (frames rules : Nat)
deriving DecidableEq

/-- What a field of a journal entry holds. -/
inductive LogField where
  | number (n : Nat)
  | text (s : String)
deriving DecidableEq

namespace LogEntry

variable {α : Type}

def level : LogEntry α → Level
  | .inserted .. => .trace
  | _ => .debug

def message : LogEntry α → String
  | .inserted operation .. => operation.name
  | .rejected .. => "no scan matched; token rejected"
  | .advanced .. => "pulse"
  | .restarted _ => "reset"
  | .compiled .. => "precomputed grammar"

/-- The named values of an entry, with chart entries written by `render`. -/
def fields (render : α → String) : LogEntry α → List (String × LogField)
  | .inserted _ location entry => [("location", .number location), ("state", .text (render entry))]
  | .rejected location tokens => [("location", .number location), ("tokens", .number tokens)]
  | .advanced location states => [("location", .number location), ("states", .number states)]
  | .restarted location => [("location", .number location)]
  | .compiled frames rules => [("frames", .number frames), ("rules", .number rules)]

/-- The chart entry and its location, for an entry that tells of an insertion. -/
def insertion? : LogEntry α → Option (Nat × α)
  | .inserted _ location entry => some (location, entry)
  | _ => none

end LogEntry

/-- What a parser did, oldest first. -/
abbrev Journal (α : Type) := Array (LogEntry α)

end ChartParser
