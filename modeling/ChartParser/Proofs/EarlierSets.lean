import ChartParser.Proofs.InRange
import ChartParser.Proofs.Parser.Contents
/-!
# Earlier sets are kept

An offer works on the set at the next location. Of the sets before it, it reads what
waits there, and adds nothing to them but memoized paths, at the end, and that only if
the parser memoizes paths. With frames it adds nothing at all (`earlier_sets_are_kept`).
-/
namespace ChartParser

variable {σ : Type}

/-- `set'` is `set`, but for memoized paths that were added at the end. -/
structure ItemSet.KeptAs (set set' : ItemSet) : Prop where
  location_eq : set'.location = set.location
  queue_eq : ∀ l ≠ .transitions, set'.queue l = set.queue l
  transitions_le : set.transitions.toList <+: set'.transitions.toList

theorem ItemSet.KeptAs.eq_of_transitions {set set' : ItemSet} (h : set.KeptAs set')
    (ht : set'.transitions = set.transitions) : set' = set := by
  rw [ItemSet.mk.injEq]
  exact ⟨h.location_eq, h.queue_eq .predictions (by simp), h.queue_eq .scans (by simp),
    h.queue_eq .completions (by simp), ht⟩

/-- Growth at `j` keeps every other set. -/
theorem Chart.Grows.keptAs {c c' : Chart ItemSet} {j k : Nat} (hg : c.Grows j c') (hc : c.Located) (hc' : c'.Located)
    (hk : k < c.size) (hkj : k ≠ j) :
    ∃ set set', c.get k = .ok set ∧ c'.get k = .ok set' ∧ set.KeptAs set' := by
  obtain ⟨set, hset, hget, hlane⟩ := exists_set hk
  obtain ⟨set', hset', hget', hlane'⟩ := exists_set (Nat.lt_of_lt_of_le hk hg.size_le)
  refine ⟨set, set', hget, hget', ?_, fun l hl => ?_, ?_⟩
  · rw [hc k set hset, hc' k set' hset']
  · have hqueue : (set'.queue l).toList = (set.queue l).toList := by
      rw [hlane, hlane', hg.lane_eq k l hkj hl]
    exact congrArg Queue.mk hqueue
  · have hle := hg.lane_le k .transitions
    rw [← hlane, ← hlane'] at hle
    exact hle

namespace Parser

variable {p : Parser σ} {input : List (List Token)} {run : Parse σ}

/-- Whether the tokens are taken or not, no set but the one after the present location
gets anything except memoized paths. -/
theorem Tracks.offer_grows (h : Tracks p input run) (tokens : List Token) :
    Succeeds (p.offer run tokens) fun x => run.chart.Grows (run.location + 1) x.2.chart := by
  rw [h.location_eq]
  by_cases hc : Continues p.grammar input tokens
  · refine (offer_spec_of_continues h hc).mono fun x ⟨_, _, hsteps⟩ => ?_
    have hsound : Sound p.grammar (input ++ [tokens]) (input.length + 1) run.chart :=
      h.sound.extend_input (Nat.le_succ _) (Nat.le_of_eq h.size_eq.symm)
    exact (Steps.keeps hsteps hsound).2
  · have hsize : run.chart.size = run.location + 1 := by rw [h.size_eq, h.location_eq]
    exact ⟨_, offer_eq_of_unexpected hsize (h.unexpected hc), .refl _ _⟩

end Parser

/-! ## Frames -/

/-- Growth at `j` keeps every other set of frames. -/
theorem FrameChart.Grows.get_eq {c c' : FrameChart} {j k : Nat} (hg : FrameChart.Grows j c c') (hk : k < c.size)
    (hkj : k ≠ j) : ∃ q, c.get k = .ok q ∧ c'.get k = .ok q := by
  obtain ⟨q, -, hget, hitems⟩ := exists_queue hk
  obtain ⟨q', -, hget', hitems'⟩ := exists_queue (Nat.lt_of_lt_of_le hk hg.size_le)
  have hqueue : q'.toList = q.toList := by rw [hitems, hitems', hg.items_eq k hkj]
  have heq : q' = q := congrArg Queue.mk hqueue
  exact ⟨q, hget, heq ▸ hget'⟩

theorem FrameGraph.Tracks.offer_grows {graph : FrameGraph} {input : List (List Token)} {run : FrameParse}
    (h : Tracks graph input run) (hv : graph.Valid) (tokens : List Token) :
    Succeeds (graph.offer run tokens) fun x => FrameChart.Grows (run.location + 1) run.chart x.2.chart := by
  rw [h.location_eq]
  by_cases hc : Continues graph.grammar input tokens
  · exact (offer_spec_of_continues hv h hc).mono fun x hx => hx.2.2
  · exact ⟨_, offer_eq_of_not_continues hv h hc, .refl _ _⟩

/-! ## Sessions -/

/-- After every session, an offer keeps every set up to the present location: the queues
of predictions, scans and completions stay as they are, with nodes, and the queue of
memoized paths only gets longer at its end, or stays as it is, too, if the parser does
not memoize paths. The set after them has no memoized path. With frames, all sets up to
the present location stay as they are. -/
theorem earlier_sets_are_kept (g : Grammar) :
    (∀ (σ : Type) (leo : Bool) (builder : ForestBuilder σ) (forest : σ) (calls : List Call), ∃ answers run,
      (do Recognizer.performAll (⟨g, leo, builder⟩ : Parser σ) (← Parser.start ⟨g, leo, builder⟩ forest) calls) =
        .ok (answers, run) ∧
      ∀ tokens, ∃ taken next, Parser.offer ⟨g, leo, builder⟩ run tokens = .ok (taken, next) ∧
        (∀ k ≤ run.location, ∃ set set', run.chart.get k = .ok set ∧ next.chart.get k = .ok set' ∧
          set.KeptAs set' ∧ (leo = false → set' = set)) ∧
        ∀ k set', run.location < k → next.chart.get k = .ok set' → set'.transitions.toList = []) ∧
    ∃ graph, FrameGraph.ofGrammar g = .ok graph ∧ ∀ calls : List Call, ∃ answers run,
      (do Recognizer.performAll graph (← graph.start) calls) = .ok (answers, run) ∧
      ∀ tokens, ∃ taken next, graph.offer run tokens = .ok (taken, next) ∧
        ∀ k ≤ run.location, ∃ q, run.chart.get k = .ok q ∧ next.chart.get k = .ok q := by
  constructor
  · intro σ leo builder forest calls
    have hI := (Parser.tabled_invariant ⟨g, leo, builder⟩).and (Parser.grounded_invariant ⟨g, leo, builder⟩)
    obtain ⟨⟨answers, run⟩, hrun, input, h, htabled, hground⟩ := hI.session_spec forest calls
    refine ⟨answers, run, hrun, fun tokens => ?_⟩
    obtain ⟨⟨taken, next⟩, hoffer, hg⟩ := h.offer_grows tokens
    have hnext : ∃ input', Parser.Tracks ⟨g, leo, builder⟩ input' next ∧ next.Tabled g ∧
        Parser.Grounded ⟨g, leo, builder⟩ input' next.chart := by
      rcases (hI.follows.offer_spec ⟨h, htabled, hground⟩ tokens).of_ok hoffer with ⟨-, -, hnext⟩ | ⟨-, -, hnext⟩
      · exact ⟨_, hnext⟩
      · exact ⟨_, hnext⟩
    obtain ⟨input', h', htabled', hground'⟩ := hnext
    have hsize : run.chart.size = run.location + 1 := by rw [h.size_eq, h.location_eq]
    refine ⟨taken, next, hoffer, fun k hk => ?_, fun k set' hk hget' => ?_⟩
    · have hlt : k < run.chart.size := by omega
      have hne : k ≠ run.location + 1 := by omega
      obtain ⟨set, set', hget, hget', hkept⟩ := hg.keptAs htabled.located htabled'.located hlt hne
      refine ⟨set, set', hget, hget', hkept, fun hleo => hkept.eq_of_transitions ?_⟩
      have hnil := h.transitions_eq_nil_of_plain hground hleo k
      have hnil' := h'.transitions_eq_nil_of_plain hground' hleo k
      rw [← Chart.queue_eq_lane hget] at hnil
      rw [← Chart.queue_eq_lane hget'] at hnil'
      exact congrArg Queue.mk (hnil'.trans hnil.symm)
    · -- The chart has at most one set more, and that is the one at the new location.
      have hle := hg.le_size
      have hsize' : next.chart.size = next.location + 1 := by rw [h'.size_eq, h'.location_eq]
      have hnil := h'.transitions_eq_nil (k := k) (by dsimp only at hle; omega)
      rwa [← Chart.queue_eq_lane hget'] at hnil
  · obtain ⟨graph, hgraph, -, hv⟩ := FrameGraph.ofGrammar_spec g
    refine ⟨graph, hgraph, fun calls => ?_⟩
    obtain ⟨⟨answers, run⟩, hrun, input, h⟩ := FrameGraph.session_spec hv calls
    refine ⟨answers, run, hrun, fun tokens => ?_⟩
    obtain ⟨⟨taken, next⟩, hoffer, hg⟩ := h.offer_grows hv tokens
    refine ⟨taken, next, hoffer, fun k hk => ?_⟩
    have hsize : run.chart.size = run.location + 1 := by rw [h.size_eq, h.location_eq]
    have hlt : k < run.chart.size := by omega
    exact hg.get_eq hlt (by dsimp only; omega)

end ChartParser
