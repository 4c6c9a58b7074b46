import ChartParser.Proofs.Chart.Replay
import ChartParser.Proofs.Journal
import ChartParser.Proofs.Parser.Indifference
import ChartParser.Proofs.Parser.Settling
/-!
# The journal of a chart parser

Whatever loop a state comes from, it goes through one insertion, which enters it in the
journal if it is new. So all the while, the journal has the items of the states that
built the chart, in their order (`Parse.Told`). The nodes of these states take no part
in any insertion; without them, the items build the chart without its nodes
(`Parse.Told.builds_bare`).
-/
namespace ChartParser

/-! ## States without their nodes -/

/-- Inserts an item, with no node. -/
def Chart.insertItem (c : Chart ItemSet) (k : Nat) (i : Item) : Except Fault Bool × Chart ItemSet := c.insert k ⟨i, none⟩

namespace Link

/-- The second parse has no nodes. -/
def withoutNodes : Link Unit Unit where
  node _ n := n = none
  token := Eq
  forest := Eq
  table := Eq
  expectations := Eq
  journal := Eq

theorem states_withoutNodes {s s' : State} : withoutNodes.States s s' ↔ s.bare = s' := by
  constructor
  · rintro ⟨hitem, hnode⟩
    cases s'
    cases hitem
    cases hnode
    rfl
  · rintro rfl
    exact ⟨rfl, rfl⟩

theorem sets_withoutNodes {set set' : ItemSet} : withoutNodes.Sets set set' ↔ set.bare = set' := by
  have hqueue : ∀ {q q' : Queue State}, List.Forall₂ withoutNodes.States q.toList q'.toList ↔ q.bare = q' := by
    rintro q ⟨l'⟩
    rw [forall₂_iff_map_eq (R := withoutNodes.States) fun _ _ => states_withoutNodes, Queue.bare, Queue.mk.injEq]
  constructor
  · rintro ⟨hlocation, h⟩
    cases set'
    rw [ItemSet.bare, ItemSet.mk.injEq]
    exact ⟨hlocation, hqueue.1 (h .predictions), hqueue.1 (h .scans), hqueue.1 (h .completions),
      hqueue.1 (h .transitions)⟩
  · rintro rfl
    exact ⟨rfl, fun l => hqueue.2 (by cases l <;> rfl)⟩

theorem charts_withoutNodes {c c' : Chart ItemSet} : withoutNodes.Charts c c' ↔ c.bare = c' := by
  obtain ⟨sets'⟩ := c'
  rw [Charts, forall₂_iff_map_eq (R := withoutNodes.Sets) fun _ _ => sets_withoutNodes, Chart.bare, Chart.mk.injEq]

end Link

/-- An insertion does not look at nodes. -/
theorem Chart.insertItem_bare (c : Chart ItemSet) (k : Nat) (s : State) :
    c.bare.insertItem k s.toItem = ((c.insert k s).1, (c.insert k s).2.bare) := by
  have hcharts := Link.charts_withoutNodes.2 (rfl : c.bare = c.bare)
  obtain ⟨hnew, hafter⟩ := hcharts.insert (Link.states_withoutNodes.2 (rfl : s.bare = s.bare)) k
  exact Prod.ext hnew.symm (Link.charts_withoutNodes.1 hafter).symm

/-! ## What the journal tells -/

variable {σ : Type} {p : Parser σ} {run run' : Parse σ} {op : Operation} {k : Nat}

/-- A refused state changes nothing. A new one is entered in the chart and in the
journal. -/
theorem Parse.insert_cases {s : State} {new : Bool} (h : run.insert op k s = .ok (new, run')) :
    (new = false ∧ run' = run) ∨ (new = true ∧ ∃ chart, run.chart.insert k s = (.ok true, chart) ∧
      run' = { run with chart, journal := run.journal.push (.inserted op k s.toItem) }) := by
  unfold insert at h
  split at h
  · cases h
  · rename_i chart hins
    cases h
    rw [Chart.insert_of_refused hins]
    exact .inl ⟨rfl, rfl⟩
  · rename_i chart hins
    cases h
    exact .inr ⟨rfl, chart, hins, rfl⟩

/-- Since the parse was last started, the chart was built from states whose items are in
the journal, and as many paths were memoized as the journal has. -/
structure Parse.Told (run : Parse σ) : Prop where
  builds : ∃ states : List (Nat × State), states.map (fun e => (e.1, e.2.toItem)) = Journal.insertions run.journal ∧
    Chart.Builds Chart.insert states run.chart
  memoized_eq : run.memoized = Journal.transitions run.journal

namespace Parse.Told

theorem emptied {journal : Journal Item} (h : Journal.latest journal = []) :
    Told { run with chart := .empty, location := 0, memoized := 0, journal } := by
  refine ⟨⟨[], ?_, .empty⟩, ?_⟩
  · rw [Journal.insertions, h]
    rfl
  · rw [Journal.transitions, h]
    rfl

theorem push {entry : LogEntry Item} (ht : run.Told) (h : entry.isRestart = false) (hnone : entry.insertion? = none) :
    Told { run with journal := run.journal.push entry } := by
  obtain ⟨hbuilds, hmemoized⟩ := ht
  rw [← Journal.insertions_push run.journal h hnone] at hbuilds
  rw [← Journal.transitions_push run.journal h hnone] at hmemoized
  exact ⟨hbuilds, hmemoized⟩

theorem inserted (ht : run.Told) {s : State} {chart : Chart ItemSet} (h : run.chart.insert k s = (.ok true, chart))
    (memoized : Nat) (hop : memoized = run.memoized + if op = .transition then 1 else 0) :
    Told { run with chart, memoized, journal := run.journal.push (.inserted op k s.toItem) } := by
  obtain ⟨⟨states, hstates, hbuilds⟩, hmemoized⟩ := ht
  refine ⟨⟨states ++ [(k, s)], ?_, hbuilds.snoc h⟩, ?_⟩
  · rw [List.map_append, hstates, Journal.insertions_push_inserted]
    rfl
  · rw [Journal.transitions_push_inserted, ← hmemoized]
    exact hop

theorem insert (ht : run.Told) (hop : op ≠ .transition) {s : State} {new : Bool}
    (h : run.insert op k s = .ok (new, run')) : run'.Told := by
  obtain ⟨-, rfl⟩ | ⟨-, chart, hins, rfl⟩ := insert_cases h
  · exact ht
  · exact ht.inserted hins run.memoized (by simp [hop])

theorem begin {rules : List DottedRule} (ht : run.Told) (hop : op ≠ .transition)
    (h : run.begin op k rules = .ok run') : run'.Told := by
  refine foldlM_keeps (P := Told) (fun {run₁ rule run₂} hrule ht₁ => ?_) h ht
  obtain ⟨⟨new, run₃⟩, hins, hrule⟩ := bind_eq_ok_iff.1 hrule
  cases hrule
  have htable : Told { run₁ with table := run₁.table.intern rule } := ⟨ht₁.builds, ht₁.memoized_eq⟩
  exact htable.insert hop hins

/-- No insertion looks at nodes, so the items are enough. -/
theorem builds_bare (ht : run.Told) :
    Chart.Builds Chart.insertItem (Journal.insertions run.journal) run.chart.bare := by
  obtain ⟨states, hstates, hbuilds⟩ := ht.builds
  rw [← hstates]
  exact hbuilds.map rfl Chart.insertItem_bare

/-- What the journal has since the parse was last started is in the chart. -/
theorem exists_mem_lane (ht : run.Told) {x : Item} (hx : (k, x) ∈ Journal.insertions run.journal) :
    ∃ l, ∃ s ∈ run.chart.lane k l, s.toItem = x := by
  obtain ⟨states, hstates, hbuilds⟩ := ht.builds
  rw [← hstates] at hx
  obtain ⟨⟨k', s⟩, hs, hx⟩ := List.mem_map.1 hx
  cases hx
  have hmem : ∀ e ∈ states, ∃ l, e.2 ∈ run.chart.lane e.1 l := by
    refine hbuilds.mem (P := fun k s c => ∃ l, s ∈ Chart.lane c k l) (fun hins => ?_) fun hins ⟨l, hl⟩ => ⟨l, ?_⟩
    · obtain ⟨l, -, hins⟩ := Chart.inserted_of_insert hins
      exact ⟨l, by simp [hins.lane_eq]⟩
    · obtain ⟨l', -, hins⟩ := Chart.inserted_of_insert hins
      rw [hins.lane_eq]
      split
      · exact List.mem_append_left _ hl
      · exact hl
  obtain ⟨l, hl⟩ := hmem _ hs
  exact ⟨l, s, hl, rfl⟩

theorem totalStates_eq (ht : run.Told) :
    run.chart.totalStates = (Journal.insertions run.journal).length := by
  obtain ⟨states, hstates, hbuilds⟩ := ht.builds
  rw [← hstates, List.length_map]
  exact hbuilds.total_eq fun hins => Chart.totalStates_of_insert hins

end Parse.Told

/-! ## Every operation keeps it -/

namespace Parser

open Parse (Told)

theorem attach_told {move : DotMove} (ht : run.Told) (hop : op ≠ .transition) (h : p.attach run op move = .ok run') :
    run'.Told := by
  obtain ⟨⟨new, run₁⟩, hins, h⟩ := bind_eq_ok_iff.1 h
  cases h
  have hforest : Told { run with forest := (p.builder.attach move run.forest).2 } := ⟨ht.builds, ht.memoized_eq⟩
  exact hforest.insert hop hins

theorem advance_told {s : State} {crossed : Crossing} (ht : run.Told) (hop : op ≠ .transition)
    (h : p.advance run op k s crossed = .ok run') : run'.Told := by
  unfold advance at h
  split at h
  · cases h
    exact ht
  · rename_i rule _
    have htable : Told { run with table := run.table.intern rule } := ⟨ht.builds, ht.memoized_eq⟩
    exact attach_told htable hop h

theorem predict_told {s : State} (ht : run.Told) (h : p.predict run k s = .ok run') : run'.Told := by
  unfold predict at h
  split at h
  · cases h
    exact ht
  · obtain ⟨run₁, hbegin, h⟩ := bind_eq_ok_iff.1 h
    have ht₁ := ht.begin (by decide) hbegin
    split at h
    · exact advance_told ht₁ (by decide) h
    · cases h
      exact ht₁

theorem addTransition_told {A : NonTerminal} {rule : DottedRule} {origin : Nat} (ht : run.Told)
    (h : addTransition run A k rule origin = .ok run') : run'.Told := by
  obtain ⟨⟨new, run₁⟩, hins, h⟩ := bind_eq_ok_iff.1 h
  cases h
  obtain ⟨rfl, rfl⟩ | ⟨rfl, chart, hchart, rfl⟩ := Parse.insert_cases hins
  · exact ht
  · exact ht.inserted hchart (run.memoized + 1) rfl

/-- Every set that the path passes is an earlier one. -/
theorem memoize_told {A : NonTerminal} {top : Option (DottedRule × Nat)} (ht : run.Told)
    (h : p.memoize run A k = .ok (top, run')) : run'.Told := by
  induction k using Nat.strongRecOn generalizing A run run' top with
  | _ k ih =>
    rw [memoize] at h
    obtain ⟨set, -, h⟩ := bind_eq_ok_iff.1 h
    split at h
    · cases h
      exact ht
    · split at h
      · cases h
        exact ht
      · split at h
        · cases h
          exact ht
        · rename_i rule _
          have htable : Told { run with table := run.table.intern rule } := ⟨ht.builds, ht.memoized_eq⟩
          dsimp only at h
          split at h
          · obtain ⟨⟨above, run₁⟩, hclimb, h⟩ := bind_eq_ok_iff.1 h
            obtain ⟨run₂, hadd, h⟩ := bind_eq_ok_iff.1 h
            cases h
            refine addTransition_told ?_ hadd
            split at hclimb
            · rename_i hlt
              exact ih _ hlt.1 htable hclimb
            · cases hclimb
              exact htable
          · cases h
            exact htable

theorem AdvancesWaiting.told {A : NonTerminal} {origin i : Nat} {crossed : Crossing}
    (h : AdvancesWaiting p A origin k crossed i run run') (ht : run.Told) : run'.Told := by
  induction h with
  | finished => exact ht
  | next _ _ hadv _ ih => exact ih (advance_told ht (by decide) hadv)

theorem PassesOn.told {s : State} (h : PassesOn p k s run run') (ht : run.Told) : run'.Told := by
  cases h with
  | jump _ _ hm _ _ hj => exact attach_told (memoize_told ht hm) (by decide) hj
  | noPath _ _ hm _ _ hw => exact hw.told (memoize_told ht hm)
  | stepwise _ hw => exact hw.told ht

theorem Reduces.told {c q : Nat} (h : Reduces p k c q run run') (ht : run.Told) : run'.Told := by
  induction h with
  | completion _ _ hc _ ih => exact ih (hc.told ht)
  | prediction _ _ _ hp _ ih => exact ih (predict_told ht hp)
  | finished => exact ht

theorem startOver_told (h : p.startOver run = .ok run') (hlatest : Journal.latest run.journal = []) : run'.Told := by
  obtain ⟨run₁, hbegin, h⟩ := bind_eq_ok_iff.1 h
  exact (reduces_of_ok h).told ((Told.emptied hlatest).begin (by decide) hbegin)

theorem scan_told {t : Token} (ht : run.Told) (h : p.scan k run t = .ok run') : run'.Told := by
  obtain ⟨set, -, h⟩ := bind_eq_ok_iff.1 h
  refine foldlM_keeps (P := Told) (fun {run₁ s run₂} hs ht₁ => ?_) h ht
  unfold scanState at hs
  split at hs
  · exact advance_told ht₁ (by decide) hs
  · cases hs
    exact ht₁

theorem offer_told {tokens : List Token} {taken : Bool} (ht : run.Told) (h : p.offer run tokens = .ok (taken, run')) :
    run'.Told := by
  obtain ⟨run₁, hscan, h⟩ := bind_eq_ok_iff.1 h
  have ht₁ : run₁.Told := foldlM_keeps (fun ht hs => scan_told hs ht) hscan ht
  dsimp only at h
  split at h
  · cases h
    exact ht₁.push rfl rfl
  · obtain ⟨run₂, hreduce, h⟩ := bind_eq_ok_iff.1 h
    obtain ⟨set, -, h⟩ := bind_eq_ok_iff.1 h
    cases h
    have hlocation : Told { run₁ with location := run₁.location + 1 } := ⟨ht₁.builds, ht₁.memoized_eq⟩
    have ht₂ : run₂.Told := (reduces_of_ok hreduce).told hlocation
    exact ht₂.push rfl rfl

theorem perform_told {call : Call} {answer : Answer} (ht : run.Told)
    (h : Recognizer.perform p run call = .ok (answer, run')) : run'.Told := by
  cases call with
  | offer tokens =>
    obtain ⟨⟨taken, run₁⟩, hoffer, h⟩ := bind_eq_ok_iff.1 h
    cases h
    exact offer_told ht hoffer
  | expected =>
    obtain ⟨⟨rules, run₁⟩, hexpected, h⟩ := bind_eq_ok_iff.1 h
    obtain ⟨x, -, hexpected⟩ := bind_eq_ok_iff.1 hexpected
    cases h
    cases hexpected
    exact ⟨ht.builds, ht.memoized_eq⟩
  | restart =>
    obtain ⟨run₁, hrestart, h⟩ := bind_eq_ok_iff.1 h
    cases h
    exact startOver_told hrestart (Journal.latest_push_restarted _ _)

theorem session_told {forest : σ} {calls : List Call} {answers : List Answer}
    (h : (do Recognizer.performAll p (← p.start forest) calls) = .ok (answers, run)) : run.Told := by
  obtain ⟨start, hstart, h⟩ := bind_eq_ok_iff.1 h
  exact Recognizer.performAll_keeps perform_told h (startOver_told hstart rfl)

end Parser

end ChartParser
