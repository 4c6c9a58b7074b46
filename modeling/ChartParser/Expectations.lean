import ChartParser.Fault
/-!
# Expected lexer rules

The distinct lexer rules among a list of places in the grammar, in grammar
order. Answers are kept, so a set of rules that is asked for again is not put
together a second time.
-/
namespace ChartParser

/-- A mark for each lexer rule, all down between two calls, and the answers
given so far with the places they were given for. -/
structure Expectations where
  marked : List Bool
  answers : List (List LexerRuleId × List LexerRule)

namespace Expectations

/-- No answers yet, for the lexer rules of `g`. -/
def ofGrammar (g : Grammar) : Expectations := ⟨List.replicate g.lexerRules.length false, []⟩

/-- Puts up the mark at `id`. -/
def mark (marked : List Bool) (id : LexerRuleId) : Except Fault (List Bool) := do
  let _ ← fetch marked id
  return marked.set id true

/-- The places whose mark is up, in increasing order. -/
def raised (marked : List Bool) : List LexerRuleId :=
  (List.range marked.length).filter fun id => marked[id]? = some true

/-- Takes down the marks at `ids`. -/
def clear (marked : List Bool) (ids : List LexerRuleId) : List Bool :=
  ids.foldl (fun marked id => marked.set id false) marked

/-- The lexer rules at `ids`, each once and in grammar order. -/
def collect (e : Expectations) (g : Grammar) (ids : List LexerRuleId) :
    Except Fault (List LexerRule × Expectations) := do
  let marked ← ids.foldlM mark e.marked
  let key := raised marked
  let marked := clear marked key
  match e.answers.lookup key with
  | some rules => return (rules, { e with marked })
  | none =>
    let rules ← key.mapM g.lexerRule
    return (rules, ⟨marked, e.answers ++ [(key, rules)]⟩)

/-! ## Marks -/

theorem mem_raised {marked : List Bool} {id : LexerRuleId} : id ∈ raised marked ↔ marked[id]? = some true := by
  simp only [raised, List.mem_filter, List.mem_range, decide_eq_true_eq, and_iff_right_iff_imp]
  intro h
  exact (List.getElem?_eq_some_iff.1 h).1

theorem getElem?_clear {marked : List Bool} {ids : List LexerRuleId} {i : Nat} :
    (clear marked ids)[i]? = if i ∈ ids then marked[i]?.map (fun _ => false) else marked[i]? := by
  induction ids generalizing marked with
  | nil => simp [clear]
  | cons id ids ih =>
    simp only [clear, List.foldl_cons] at ih ⊢
    rw [ih]
    by_cases hi : i = id
    · subst hi
      by_cases hl : i < marked.length <;> simp [hl]
    · simp [hi, List.getElem?_set_ne (Ne.symm hi)]

/-- Clearing the marks that are up leaves none up. -/
theorem clear_raised (marked : List Bool) :
    clear marked (raised marked) = List.replicate marked.length false := by
  apply List.ext_getElem?
  intro i
  simp only [getElem?_clear, mem_raised, List.getElem?_replicate]
  by_cases hl : i < marked.length
  · cases hb : marked[i] <;> simp [hb, hl]
  · simp [hl]

end Expectations

end ChartParser
