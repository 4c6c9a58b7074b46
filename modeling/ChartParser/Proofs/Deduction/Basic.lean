import ChartParser.Frame.Closure
/-!
# Deducible items

The items that belong to each location of an input, by what they follow from
and not by how a parser finds them. Every parser of this library is compared
with this one relation, and so with every other.

An input is a list with the tokens that were offered as alternatives at each
location. Items follow from one another by four rules: the start rules, dots put
in front of productions that are awaited, dots moved over a token and dots moved
over a completed non-terminal. Moving over a nullable non-terminal is no rule of
its own, but `Deducible.skip` says that it adds nothing.
-/
namespace ChartParser

/-- One of the tokens offered at location `j` has type `t`. -/
def Offers (input : List (List Token)) (j : Nat) (t : TokenType) : Prop :=
  ∃ tokens, input[j]? = some tokens ∧ ∃ token ∈ tokens, token.tokenType = t

theorem Offers.lt_length {input : List (List Token)} {j : Nat} {t : TokenType} (h : Offers input j t) :
    j < input.length := by
  obtain ⟨_, h, -⟩ := h
  exact (List.getElem?_eq_some_iff.1 h).1

/-- `Deducible g input r i j`: the dotted rule `r` has been recognized up to its
dot from location `i` to location `j` of the input. -/
inductive Deducible (g : Grammar) (input : List (List Token)) : DottedRule → Nat → Nat → Prop
  | start {r : DottedRule} (h : r ∈ g.initialRules g.start) : Deducible g input r 0 0
  | predict {r r' : DottedRule} {i j : Nat} {A : NonTerminal} (h : Deducible g input r i j)
      (hA : r.postDot? = some (.nonTerminal A)) (h' : r' ∈ g.initialRules A) : Deducible g input r' j j
  | scan {r r' : DottedRule} {i j : Nat} {l : LexerRule} (h : Deducible g input r i j)
      (hl : r.postDot? = some (.terminal l)) (ht : Offers input j l.tokenType) (hr : r.advance? = some r') :
      Deducible g input r' i (j + 1)
  | complete {r r' c : DottedRule} {i k j : Nat} (h : Deducible g input r i k)
      (hA : r.postDot? = some (.nonTerminal c.lhs)) (h' : Deducible g input c k j) (hc : c.isComplete = true)
      (hr : r.advance? = some r') : Deducible g input r' i j

/-- Some item at the end of the input is a complete start rule from its beginning. -/
def Completes (g : Grammar) (input : List (List Token)) : Prop :=
  ∃ r, Deducible g input r 0 input.length ∧ r.isComplete = true ∧ r.lhs = g.start

/-- Some item at the end of the input expects a token of type `t`. -/
def Expects (g : Grammar) (input : List (List Token)) (t : TokenType) : Prop :=
  ∃ r i l, Deducible g input r i input.length ∧ r.postDot? = some (.terminal l) ∧ l.tokenType = t

/-- One of the tokens is expected at the end of the input. -/
def Continues (g : Grammar) (input : List (List Token)) (tokens : List Token) : Prop :=
  ∃ t ∈ tokens, Expects g input t.tokenType

namespace Deducible

variable {g : Grammar} {input : List (List Token)} {r c : DottedRule} {i j : Nat}

/-! ## Where items are -/

theorem hasRule (h : Deducible g input r i j) : g.HasRule r := by
  induction h with
  | start h => exact (Grammar.HasRule.of_mem_initialRules h).1
  | predict _ _ h' => exact (Grammar.HasRule.of_mem_initialRules h').1
  | scan _ _ _ hr ih => exact ih.advance? hr
  | complete _ _ _ _ hr ih => exact ih.advance? hr

theorem origin_le (h : Deducible g input r i j) : i ≤ j := by
  induction h with
  | start | predict => exact Nat.le_refl _
  | scan _ _ _ _ ih => exact Nat.le_succ_of_le ih
  | complete _ _ _ _ _ ih ih' => exact Nat.le_trans ih ih'

/-- With the dot in front, nothing has been recognized yet. -/
theorem origin_eq_of_position (h : Deducible g input r i j) (hr : r.position = 0) : i = j := by
  cases h with
  | start => rfl
  | predict => rfl
  | scan _ _ _ hadvance | complete _ _ _ _ hadvance =>
    rw [(DottedRule.advance?_some hadvance).2.2.1] at hr
    exact absurd hr (Nat.succ_ne_zero _)

theorem location_le (h : Deducible g input r i j) : j ≤ input.length := by
  induction h with
  | start => exact Nat.zero_le _
  | predict _ _ _ ih => exact ih
  | scan _ _ ht => exact ht.lt_length
  | complete _ _ _ _ _ _ ih' => exact ih'

theorem offers_append {more : List (List Token)} {t : TokenType} (hj : j < input.length) :
    Offers (input ++ more) j t ↔ Offers input j t := by
  simp only [Offers, List.getElem?_append_left hj]

/-- The items at a location depend on the input before it only. -/
theorem append_iff {more : List (List Token)} (hj : j ≤ input.length) :
    Deducible g (input ++ more) r i j ↔ Deducible g input r i j := by
  constructor
  · intro h
    induction h with
    | start h => exact .start h
    | predict _ hA h' ih => exact .predict (ih hj) hA h'
    | scan _ hl ht hr ih => exact .scan (ih (by omega)) hl ((offers_append (by omega)).1 ht) hr
    | complete _ hA h' hc hr ih ih' => exact .complete (ih (Nat.le_trans h'.origin_le hj)) hA (ih' hj) hc hr
  · intro h
    induction h with
    | start h => exact .start h
    | predict _ hA h' ih => exact .predict (ih hj) hA h'
    | scan _ hl ht hr ih => exact .scan (ih (by omega)) hl ((offers_append (by omega)).2 ht) hr
    | complete _ hA h' hc hr ih ih' => exact .complete (ih (Nat.le_trans h'.origin_le hj)) hA (ih' hj) hc hr

/-- Items beyond a location come from an expected token there. -/
theorem continues {tokens : List Token} {more : List (List Token)}
    (h : Deducible g (input ++ tokens :: more) r i j) (hj : input.length < j) : Continues g input tokens := by
  induction h with
  | start => omega
  | predict _ _ _ ih => exact ih hj
  | complete _ _ _ _ _ _ ih' => exact ih' hj
  | @scan r _ i j l h hl ht _ ih =>
    by_cases hlt : input.length < j
    · exact ih hlt
    · obtain rfl : j = input.length := by omega
      obtain ⟨tokens', htokens, t, ht, htype⟩ := ht
      rw [List.getElem?_append_right (Nat.le_refl _), Nat.sub_self, List.getElem?_cons_zero,
        Option.some.injEq] at htokens
      subst htokens
      exact ⟨t, ht, r, i, l, (append_iff (Nat.le_refl _)).1 h, hl, htype.symm⟩

/-! ## Nullable non-terminals -/

/-- What was recognized without input consists of nullable non-terminals. -/
theorem nullableAmong_before (h : Deducible g input r i j) (hij : i = j) :
    ∀ s ∈ r.before, s.nullableAmong (nullables g.productions) = true := by
  induction h with
  | start h =>
    obtain ⟨_, _, -, -, rfl⟩ := Grammar.mem_initialRules.1 h
    simp [DottedRule.initial]
  | predict _ _ h' =>
    obtain ⟨_, _, -, -, rfl⟩ := Grammar.mem_initialRules.1 h'
    simp [DottedRule.initial]
  | scan h _ _ _ _ =>
    have := h.origin_le
    omega
  | @complete r r' c i k j h hA h' hc hr ih ih' =>
    have := h.origin_le
    have := h'.origin_le
    obtain ⟨p, hp, hlhs, hrhs⟩ := h'.hasRule.exists_mem
    rw [DottedRule.isComplete_iff.1 hc, List.append_nil] at hrhs
    have hn := nullableFrom_closed g.productions [] p hp (by rw [hrhs]; exact ih' (by omega))
    intro s hs
    rw [DottedRule.before_of_advance? hA hr] at hs
    rcases List.mem_append.1 hs with hs | hs
    · exact ih (by omega) s hs
    · rw [List.mem_singleton] at hs
      subst hs
      rw [Symbol.nullableAmong, decide_eq_true_eq, ← hlhs]
      exact hn

/-- A production that was completed without input has a nullable left-hand side. -/
theorem lhs_mem_nullables (h : Deducible g input c j j) (hc : c.isComplete = true) :
    c.lhs ∈ nullables g.productions := by
  obtain ⟨p, hp, hlhs, hrhs⟩ := h.hasRule.exists_mem
  rw [DottedRule.isComplete_iff.1 hc, List.append_nil] at hrhs
  rw [← hlhs]
  exact nullableFrom_closed g.productions [] p hp (by rw [hrhs]; exact h.nullableAmong_before rfl)

/-- What is completed without input, the dot may move past at once. -/
theorem skip?_eq_some {r' : DottedRule} (h : Deducible g input c j j) (hc : c.isComplete = true)
    (hA : r.postDot? = some (.nonTerminal c.lhs)) (hr : r.advance? = some r') : g.skip? r = some r' := by
  have hn := h.lhs_mem_nullables hc
  simp only [Grammar.skip?, DottedRule.postDotNonTerminal?_eq_some_iff.2 hA, Grammar.isNullable_iff.2 hn, if_true, hr]

/-- A nullable non-terminal that some item waits for is completed at once. -/
theorem exists_complete {A : NonTerminal} (hA : A ∈ nullables g.productions) :
    ∀ r i j, Deducible g input r i j → r.postDot? = some (.nonTerminal A) →
      ∃ c, Deducible g input c j j ∧ c.isComplete = true ∧ c.lhs = A := by
  refine nullableFrom_induction (fun A => ∀ r i j, Deducible g input r i j →
    r.postDot? = some (.nonTerminal A) → ∃ c, Deducible g input c j j ∧ c.isComplete = true ∧ c.lhs = A)
    (fun _ h => absurd h List.not_mem_nil) ?_ A hA
  intro p hp hall r i j hr hA
  obtain ⟨id, hid⟩ := List.mem_iff_getElem?.1 hp
  have hinit : Deducible g input (.initial id p) j j :=
    .predict hr hA (Grammar.mem_initialRules.2 ⟨id, p, hid, rfl, rfl⟩)
  -- The dot moves over the right-hand side symbol by symbol.
  have hmove : ∀ v u, p.rhs = u ++ v → Deducible g input ⟨id, p.lhs, u, v⟩ j j →
      ∃ c, Deducible g input c j j ∧ c.isComplete = true ∧ c.lhs = p.lhs := by
    intro v
    induction v with
    | nil => exact fun u _ h => ⟨_, h, by simp [DottedRule.isComplete], rfl⟩
    | cons s v ih =>
      intro u hu h
      obtain ⟨B, rfl, hB⟩ := hall s (by simp [hu])
      obtain ⟨c, hc, hcc, rfl⟩ := hB _ _ j h rfl
      exact ih (u ++ [.nonTerminal c.lhs]) (by simp [hu]) (.complete h rfl hc hcc rfl)
  exact hmove p.rhs [] rfl hinit

/-- The dot may move past a nullable non-terminal at once. -/
theorem skip {r' : DottedRule} (h : Deducible g input r i j) (hs : g.skip? r = some r') :
    Deducible g input r' i j := by
  unfold Grammar.skip? at hs
  split at hs
  · cases hs
  · rename_i A hA
    rw [DottedRule.postDotNonTerminal?_eq_some_iff] at hA
    split at hs
    · rename_i hn
      obtain ⟨c, hc, hcc, rfl⟩ := exists_complete (Grammar.isNullable_iff.1 hn) r i j h hA
      exact .complete h hA hc hcc hs
    · cases hs

end Deducible

end ChartParser
