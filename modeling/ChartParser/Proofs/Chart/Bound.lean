import ChartParser.Parser.Reduction
import ChartParser.Proofs.Chart.Sound
import ChartParser.Proofs.Grammar.DottedRules
import Mathlib.Data.List.Nodup
/-!
# How many states a set holds

A set holds at most one normal state for each dotted rule and each origin up to
its location, which is the bound that reduction works with. That takes no more
of a chart than what a glance at each state can tell (`Chart.Ranged`).
-/
namespace ChartParser

variable {g : Grammar} {input : List (List Token)} {j : Nat} {c : Chart ItemSet}

namespace Chart

/-- The normal states of the set at `k`. -/
def normals (c : Chart ItemSet) (k : Nat) : List State :=
  c.lane k .predictions ++ c.lane k .scans ++ c.lane k .completions

/-- Every state stands in the lane it belongs to, once, with a rule of the grammar and an
origin up to its location. -/
structure Ranged (g : Grammar) (c : Chart ItemSet) : Prop where
  lane_ok : ∀ {k l s}, s ∈ c.lane k l → s.lane = .ok l
  nodup : ∀ k l, ((c.lane k l).map State.toItem).Nodup
  hasRule : ∀ {k l s}, s ∈ c.lane k l → g.HasRule s.rule
  origin_le : ∀ {k l s}, s ∈ c.lane k l → s.origin ≤ k

namespace Ranged

theorem lane_of_mem_normals (h : c.Ranged g) {k : Nat} {s : State} (hs : s ∈ c.normals k) :
    ∃ l, s ∈ c.lane k l ∧ s.lane = .ok l ∧ s.kind = .normal := by
  have hlane : ∀ l, l ≠ .transitions → s ∈ c.lane k l → ∃ l, s ∈ c.lane k l ∧ s.lane = .ok l ∧ s.kind = .normal :=
    fun l hl hs => ⟨l, hs, h.lane_ok hs, Item.kind_of_lane (h.lane_ok hs) hl⟩
  rcases List.mem_append.1 hs with hs | hs
  · rcases List.mem_append.1 hs with hs | hs
    · exact hlane _ (by simp) hs
    · exact hlane _ (by simp) hs
  · exact hlane _ (by simp) hs

theorem nodup_normals (h : c.Ranged g) (k : Nat) : ((c.normals k).map State.toItem).Nodup := by
  -- Different lanes have no item in common.
  have hdisj : ∀ l m, l ≠ m → List.Disjoint ((c.lane k l).map State.toItem) ((c.lane k m).map State.toItem) := by
    intro l m hlm i hl hm
    obtain ⟨s, hs, rfl⟩ := List.mem_map.1 hl
    obtain ⟨t, ht, hi⟩ := List.mem_map.1 hm
    have hlane := h.lane_ok ht
    rw [hi, h.lane_ok hs, Except.ok.injEq] at hlane
    exact hlm hlane
  simp only [Chart.normals, List.map_append]
  refine List.Nodup.append (List.Nodup.append (h.nodup _ _) (h.nodup _ _) (hdisj _ _ (by simp))) (h.nodup _ _) ?_
  exact List.disjoint_append_left.2 ⟨hdisj _ _ (by simp), hdisj _ _ (by simp)⟩

theorem length_normals_le (h : c.Ranged g) (k : Nat) : (c.normals k).length ≤ g.stateBound k := by
  have hnodup : ((c.normals k).map fun s => (s.rule, s.origin)).Nodup := by
    refine List.Nodup.map_on ?_ (List.Nodup.of_map _ (h.nodup_normals k))
    intro s hs t ht hst
    obtain ⟨-, -, -, hk⟩ := h.lane_of_mem_normals hs
    obtain ⟨-, -, -, hk'⟩ := h.lane_of_mem_normals ht
    refine List.inj_on_of_nodup_map (h.nodup_normals k) hs ht ?_
    simp only [Prod.mk.injEq] at hst
    obtain ⟨⟨r, i, kind⟩, _⟩ := s
    obtain ⟨⟨r', i', kind'⟩, _⟩ := t
    simp_all
  have hbound := Grammar.length_le_of_origins (g := g) (j := k) hnodup ?_
  · simpa [Grammar.stateBound] using hbound
  · intro x hx
    obtain ⟨s, hs, rfl⟩ := List.mem_map.1 hx
    obtain ⟨l, hl, -, -⟩ := h.lane_of_mem_normals hs
    exact ⟨h.hasRule hl, h.origin_le hl⟩

theorem length_queues_le (h : c.Ranged g) (k : Nat) :
    (c.lane k .completions).length + (c.lane k .predictions).length ≤ g.stateBound k := by
  have := h.length_normals_le k
  simp only [Chart.normals, List.length_append] at this
  omega

theorem length_waiting_le (h : c.Ranged g) (k : Nat) (A : NonTerminal) :
    (c.waiting k A).length ≤ g.stateBound k := by
  have hfilter : (c.waiting k A).length ≤ (c.lane k .predictions).length := List.length_filter_le _ _
  have := h.length_queues_le k
  omega

/-- Memoized paths apart, a set has no more states than that. -/
theorem countP_states_le (h : c.Ranged g) {k : Nat} {set : ItemSet} (hset : c.get k = .ok set) :
    set.states.countP (·.kind = .normal) ≤ g.stateBound k := by
  have htrans : (c.lane k .transitions).countP (·.kind = .normal) = 0 := by
    refine List.countP_eq_zero.2 fun s hs => ?_
    obtain ⟨⟨A, hA⟩, -⟩ := Item.lane_eq_transitions_iff.1 (h.lane_ok hs)
    simp [hA]
  have hstates : set.states = c.normals k ++ c.lane k .transitions := by
    simp only [normals, ← queue_eq_lane hset]
    rfl
  rw [hstates, List.countP_append, htrans]
  exact Nat.le_trans List.countP_le_length (h.length_normals_le k)

/-- A state in range may be inserted. -/
theorem inserted (h : c.Ranged g) {c' : Chart ItemSet} {k : Nat} {l : Lane} {s : State} {new : Bool}
    (hins : c.Inserted k l s new c') (hl : s.lane = .ok l) (hr : g.HasRule s.rule) (hi : s.origin ≤ k) :
    c'.Ranged g := by
  refine ⟨fun {k' m a} ha => ?_, hins.nodup h.nodup, fun {k' m a} ha => ?_, fun {k' m a} ha => ?_⟩ <;>
    rcases hins.mem ha with ha | ⟨rfl, rfl, rfl⟩
  · exact h.lane_ok ha
  · exact hl
  · exact h.hasRule ha
  · exact hr
  · exact h.origin_le ha
  · exact hi

end Ranged

end Chart

namespace Sound

/-- The rule at the top of a path is one of the grammar. -/
theorem hasRule_of_top? (h : Sound g input j c) {A : NonTerminal} {k : Nat} {t : DottedRule × Nat}
    (ht : c.top? g.start A k = some t) : g.HasRule t.1 := by
  induction k using Nat.strongRecOn generalizing A t with
  | _ k ih =>
    obtain ⟨s, rule, hs, hr, -, rfl⟩ := Chart.top?_eq_some_iff.1 ht
    have hrule : g.HasRule rule := (h.hasRule_of_waiting (show s ∈ c.waiting k A by simp [hs])).advance? hr
    split
    · rename_i hcl
      cases htop : c.top? g.start rule.lhs s.origin with
      | none => exact hrule
      | some t => exact ih s.origin hcl.1 htop
    · exact hrule

theorem ranged (h : Sound g input j c) : c.Ranged g := by
  refine ⟨h.lane_ok, h.nodup, fun {k l s} hs => ?_, h.origin_le⟩
  by_cases hl : l = .transitions
  · subst hl
    obtain ⟨⟨A, hkind⟩, -⟩ := Item.lane_eq_transitions_iff.1 (h.lane_ok hs)
    exact h.hasRule_of_top? (h.memo hs hkind).2
  · exact (h.deducible_of_holds (h.holds hs hl)).hasRule

end Sound

end ChartParser
