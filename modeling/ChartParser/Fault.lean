import ChartParser.DottedRule
/-!
# Faults

What an operation answers when it is asked for something that does not exist,
instead of a result.
-/
namespace ChartParser

/-- The ways in which an operation can be misused. -/
inductive Fault where
  /-- No entry at `index` in a table of `size` entries. -/
  | outOfBounds (size index : Nat)
  /-- A dot beyond the end of a production of `length` symbols. -/
  | dotOutOfRange (position : Nat) (production : ProductionId) (length : Nat)
  /-- A complete rule has no symbol to move the dot over. -/
  | alreadyComplete (rule : DottedRule)
  /-- A transitive state stands for complete rules only. -/
  | incompleteTransitive (rule : DottedRule)
  /-- A set can be added to a chart of `size` sets at its end only. -/
  | beyondEnd (location size : Nat)
  /-- Frames keep no derivations. -/
  | noForest
  /-- A loop ran longer than the size of the grammar allows. -/
  | unsettled
deriving DecidableEq

def Fault.message : Fault → String
  | .outOfBounds size index =>
    "index out of bounds: the len is " ++ toString size ++ " but the index is " ++ toString index
  | .dotOutOfRange position production length =>
    "dot position " ++ toString position ++ " out of range for production " ++
      renderProductionId production ++ " of length " ++ toString length
  | .alreadyComplete rule => "cannot advance complete dotted rule " ++ rule.render
  | .incompleteTransitive rule => "transitive state over incomplete rule " ++ rule.render
  | .beyondEnd location size => toString location ++ " <= len " ++ toString size
  | .noForest =>
    "the deterministic engine is a recognizer only and builds no parse forest; use ParseEngine"
  | .unsettled => "the reduction did not settle"

/-- Two steps, one after the other, succeed exactly when both do. -/
theorem bind_eq_ok_iff {α β : Type} {x : Except Fault α} {f : α → Except Fault β} {b : β} :
    x >>= f = .ok b ↔ ∃ a, x = .ok a ∧ f a = .ok b := by
  cases x <;> simp [bind, Except.bind]

/-- The entry at `index`. -/
def fetch {α : Type} (entries : List α) (index : Nat) : Except Fault α :=
  match entries[index]? with
  | some a => .ok a
  | none => .error (.outOfBounds entries.length index)

theorem fetch_eq_ok_iff {α : Type} {entries : List α} {i : Nat} {a : α} :
    fetch entries i = .ok a ↔ entries[i]? = some a := by
  unfold fetch
  split <;> simp_all

theorem fetch_eq_error_iff {α : Type} {entries : List α} {i : Nat} {e : Fault} :
    fetch entries i = .error e ↔ entries.length ≤ i ∧ e = .outOfBounds entries.length i := by
  unfold fetch
  split
  · rename_i a h
    have := (List.getElem?_eq_some_iff.1 h).1
    simp only [reduceCtorEq, false_iff, not_and]
    omega
  · simp_all [eq_comm]

namespace Grammar

def production (g : Grammar) (id : ProductionId) : Except Fault Production := fetch g.productions id

def lexerRule (g : Grammar) (id : LexerRuleId) : Except Fault LexerRule := fetch g.lexerRules id

/-- The production at `id` with `position` symbols before the dot. -/
def dottedRule (g : Grammar) (id : ProductionId) (position : Nat) : Except Fault DottedRule := do
  let p ← g.production id
  if position ≤ p.rhs.length then return ⟨id, p.lhs, p.rhs.take position, p.rhs.drop position⟩
  else throw (.dotOutOfRange position id p.rhs.length)

theorem HasRule.of_dottedRule {g : Grammar} {id position : Nat} {r : DottedRule}
    (h : g.dottedRule id position = .ok r) :
    g.HasRule r ∧ r.production = id ∧ r.position = position := by
  obtain ⟨p, hp, h⟩ := bind_eq_ok_iff.1 h
  split at h
  · cases h
    have := fetch_eq_ok_iff.1 hp
    simp [HasRule, DottedRule.position, this]
    omega
  · cases h

theorem HasRule.dottedRule_eq {g : Grammar} {r : DottedRule} (h : g.HasRule r) :
    g.dottedRule r.production r.position = .ok r := by
  have hp : g.production r.production = .ok ⟨r.lhs, r.before ++ r.after⟩ := fetch_eq_ok_iff.2 h
  simp only [dottedRule, hp, bind, Except.bind, DottedRule.position, List.length_append]
  rw [if_pos (Nat.le_add_right _ _), List.take_left, List.drop_left]
  rfl

/-- Moving the dot leads to the next position. -/
theorem HasRule.dottedRule_succ {g : Grammar} {r r' : DottedRule} (h : g.HasRule r) (ha : r.advance? = some r') :
    g.dottedRule r.production (r.position + 1) = .ok r' := by
  obtain ⟨hproduction, -, hposition, -⟩ := DottedRule.advance?_some ha
  rw [← hproduction, ← hposition]
  exact (h.advance? ha).dottedRule_eq

/-- A production can have its dot at any position up to its end. -/
theorem exists_dottedRule_iff {g : Grammar} {id position : Nat} :
    (∃ r, g.dottedRule id position = .ok r) ↔ ∃ p, g.production id = .ok p ∧ position ≤ p.rhs.length := by
  constructor
  · rintro ⟨r, h⟩
    obtain ⟨p, hp, h⟩ := bind_eq_ok_iff.1 h
    split at h
    · rename_i hle
      exact ⟨p, hp, hle⟩
    · cases h
  · rintro ⟨p, hp, hle⟩
    exact ⟨_, bind_eq_ok_iff.2 ⟨p, hp, if_pos hle⟩⟩

end Grammar

end ChartParser
