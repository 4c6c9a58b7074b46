import ChartParser.DottedRule
import Mathlib.Data.List.Perm.Subperm
import Mathlib.Data.List.ProdSigma
/-!
# All dotted rules of a grammar

There are `dotCount` ways to put a dot into a production of the grammar, so a
list of different dotted rules is no longer than that (`length_le_dotCount`).
-/
namespace ChartParser.Grammar

variable {g : Grammar}

/-- The production with a dot at every place. -/
def dottings (id : ProductionId) (p : Production) : List DottedRule :=
  (List.range (p.rhs.length + 1)).map fun n => ⟨id, p.lhs, p.rhs.take n, p.rhs.drop n⟩

def dottedRules (g : Grammar) : List DottedRule := g.productions.zipIdx.flatMap fun (p, i) => dottings i p

theorem length_dottings (ps : List Production) (n : Nat) :
    ((ps.zipIdx n).flatMap fun (p, i) => dottings i p).length = ps.foldr (fun p m => p.rhs.length + 1 + m) 0 := by
  induction ps generalizing n with
  | nil => rfl
  | cons p ps ih =>
    rw [List.zipIdx_cons, List.flatMap_cons, List.length_append, ih]
    simp [dottings]

theorem length_dottedRules (g : Grammar) : g.dottedRules.length = g.dotCount := length_dottings _ 0

theorem HasRule.mem_dottedRules {r : DottedRule} (h : g.HasRule r) : r ∈ g.dottedRules := by
  simp only [dottedRules, List.mem_flatMap, Prod.exists, List.mk_mem_zipIdx_iff_getElem?]
  refine ⟨_, _, h, ?_⟩
  simp only [dottings, List.mem_map, List.mem_range]
  have hlt : r.before.length < (r.before ++ r.after).length + 1 := by
    rw [List.length_append]
    omega
  exact ⟨r.before.length, hlt, by simp⟩

theorem length_le_dotCount {rules : List DottedRule} (hn : rules.Nodup) (h : ∀ r ∈ rules, g.HasRule r) :
    rules.length ≤ g.dotCount := by
  rw [← length_dottedRules]
  exact (List.subperm_of_subset hn fun r hr => (h r hr).mem_dottedRules).length_le

/-- Different dotted rules with origins up to `j`. -/
theorem length_le_of_origins {items : List (DottedRule × Nat)} {j : Nat} (hn : items.Nodup)
    (h : ∀ x ∈ items, g.HasRule x.1 ∧ x.2 ≤ j) : items.length ≤ g.dotCount * (j + 1) := by
  have hsub : items ⊆ g.dottedRules ×ˢ List.range (j + 1) := by
    intro x hx
    obtain ⟨hr, hj⟩ := h x hx
    exact List.mem_product.2 ⟨hr.mem_dottedRules, List.mem_range.2 (by omega)⟩
  have := (List.subperm_of_subset hn hsub).length_le
  rwa [List.length_product, length_dottedRules, List.length_range] at this

end ChartParser.Grammar
