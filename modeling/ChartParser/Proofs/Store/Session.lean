import ChartParser.Proofs.InRange
import ChartParser.Proofs.Restart
import ChartParser.Proofs.Store.Agreement
/-!
# Parses in stores

The states of a parse carry their rules. A store has the places of the rules instead, and
it can hold every parse: what a parser does to its table and its chart can be told to a
store, call by call (`Parse.Stored.step`), and the store has the same states then, in the
same queues and found in the same ways (`Parser.session_held`).

A parse that starts over keeps its table, so its rules may have other places than those
of a new parse. Nothing else differs in the stores that hold the two: entry by entry they
have the same items (`restart_renames_rules`).
-/
namespace ChartParser

variable {σ : Type} {g : Grammar} {r : DottedRule} {run run' : Parse σ}

/-! ## What a store is told -/

namespace RuleTable

/-- The state with the place of its rule. -/
def store (t : RuleTable) (s : State) : StoredState := ⟨t.idOf s.rule, s.origin, s.kind, s.node⟩

/-- What is stored as `e`, but for the node. -/
def item? (t : RuleTable) (e : StoredState) : Option Item := (t.state? e).map State.toItem

/-- New rules come one after the other. -/
theorem internAll_of_nodup {t : RuleTable} {rules : List DottedRule} (h : (t.rules ++ rules).Nodup) :
    t.internAll rules = ⟨t.rules ++ rules⟩ := by
  induction rules generalizing t with
  | nil => simp [internAll]
  | cons r rules ih =>
    have hnew : r ∉ t.rules := fun hr => (List.nodup_append.1 h).2.2 r hr r (by simp) rfl
    have hintern : t.intern r = ⟨t.rules ++ [r]⟩ := by rw [intern, if_neg hnew]
    have hrest := @ih (t.intern r) (by simpa [hintern] using h)
    rw [hintern] at hrest
    simpa [internAll, hintern] using hrest

end RuleTable

/-- Enter the rule. -/
def StoreCall.enter (r : DottedRule) : StoreCall := .rule r.production r.position

namespace Store

variable {S : Type} [StateSet S]

theorem perform_enter (store : Store S) (hr : g.HasRule r) :
    (store.perform g (.enter r)).2 = { store with table := store.table.intern r } := by
  rw [StoreCall.enter, perform, RuleTable.get_eq_of_ok hr.dottedRule_eq]
  rfl

theorem performAll_enter (store : Store S) {rules : List DottedRule} (hr : ∀ r ∈ rules, g.HasRule r) :
    (store.performAll g (rules.map .enter)).2 = { store with table := store.table.internAll rules } := by
  induction rules generalizing store with
  | nil => rfl
  | cons r rules ih =>
    have hrest := ih (store.perform g (.enter r)).2 fun r' hr' => hr r' (by simp [hr'])
    refine hrest.trans ?_
    rw [perform_enter store (hr r (by simp))]
    rfl

/-- A state goes into the chart as it is, by the place of its rule. -/
theorem perform_insertAt (store : Store ItemSet) (k : Nat) {s : State} (hs : s.rule ∈ store.table.rules) :
    (store.perform g (.insertAt k (store.table.store s))).2 = { store with chart := (store.chart.insert k s).2 } := by
  have hchange : store.change (store.table.store s) = (·.insert s) := by
    funext set
    have hrule : store.table.rule (store.table.store s).rule = .ok s.rule := RuleTable.rule_idOf hs
    rw [change, hrule]
    rfl
  rw [perform, insertAt, hchange]
  rfl

end Store

/-! ## Parses told to stores -/

/-- A store of item sets that has been told some calls has the table and the chart of the parse. -/
def Parse.Stored (g : Grammar) (run : Parse σ) : Prop :=
  ∃ calls, ((Store.empty ItemSet 0).performAll g calls).2 = ⟨run.table, .empty 0, run.chart⟩

namespace Parse.Stored

theorem tell (h : run.Stored g) (call : StoreCall)
    (hcall : ((⟨run.table, .empty 0, run.chart⟩ : Store ItemSet).perform g call).2 = ⟨run'.table, .empty 0, run'.chart⟩) :
    run'.Stored g := by
  obtain ⟨calls, hcalls⟩ := h
  refine ⟨calls ++ [call], ?_⟩
  rw [Store.performAll_append, hcalls]
  exact hcall

theorem nodup (h : run.Stored g) : run.table.rules.Nodup := by
  obtain ⟨calls, hcalls⟩ := h
  obtain ⟨-, hrel⟩ := ItemSet.simulates.performAll (ItemSet.simulates.empty 0) g calls
  rw [hcalls] at hrel
  have htable : run.table = _ := hrel.table_eq
  rw [htable]
  exact hrel.nodup

/-- One step of a parse is one call, or none. -/
theorem step {p : Parser σ} {input : List (List Token)} {j : Nat} (hstep : Step p input j run run')
    (ht : run.Tabled p.grammar) (h : run.Stored p.grammar) : run'.Stored p.grammar := by
  rcases hstep.change_cases with ⟨htable, hchart⟩ | ⟨r, hr, htable, hchart⟩ | ⟨k, s, hknown, htable, hchart⟩
  · rw [Stored, htable, hchart]
    exact h
  · refine h.tell (.enter r) ?_
    rw [Store.perform_enter _ hr, htable, hchart]
  · have hs : s.rule ∈ run.table.rules := by
      rcases hknown with hs | ⟨k', l, s', hs', heq⟩
      · exact hs
      · exact heq ▸ ht.mem hs'
    refine h.tell (.insertAt k (run.table.store s)) ?_
    rw [Store.perform_insertAt _ k hs, htable, hchart]

/-- What starting over leaves is told to an empty store by entering all rules again. -/
theorem emptied (ht : run.Tabled g) (h : run.Stored g) : run.emptied.Stored g := by
  refine ⟨run.table.rules.map .enter, ?_⟩
  have hintern : RuleTable.empty.internAll run.table.rules = run.table := RuleTable.internAll_of_nodup h.nodup
  rw [Store.performAll_enter _ ht.hasRule, Store.empty, hintern]
  rfl

end Parse.Stored

theorem Parser.stored_invariant (p : Parser σ) :
    Invariant p fun _ run => run.Tabled p.grammar ∧ run.Stored p.grammar where
  fresh htable hchart hmemoized := by
    refine ⟨(tabled_invariant p).fresh htable hchart hmemoized, [], ?_⟩
    rw [htable, hchart]
    rfl
  emptied {input _} h := ⟨@Invariant.emptied _ _ _ (tabled_invariant p) input _ h.1, h.2.emptied h.1⟩
  extend _ _ h := h
  step hs hstep h := ⟨step_tabled hs hstep h.1, h.2.step hstep h.1⟩

/-! ## Stores that hold parses -/

/-- The store has come, by calls, to the table of the parse and to a chart that has the
states of the parse, in sets with indices. -/
structure Store.Holds (g : Grammar) (store : Store IndexedSet) (run : Parse σ) : Prop where
  told : ∃ calls, ((Store.empty IndexedSet 0).performAll g calls).2 = store
  table_eq : store.table = run.table
  sets : List.Forall₂ (fun set indexed => ∃ history, KeptAlike run.table history set indexed)
    run.chart.sets store.chart.sets

theorem Parse.Stored.exists_holds (h : run.Stored g) : ∃ store : Store IndexedSet, store.Holds g run := by
  obtain ⟨calls, hcalls⟩ := h
  have hitems := ItemSet.simulates.and_size
  have hindexed := IndexedSet.simulates.and_size
  obtain ⟨-, hrel⟩ := hitems.performAll (hitems.empty 0) g calls
  obtain ⟨-, hrel'⟩ := hindexed.performAll (hindexed.empty 0) g calls
  rw [hcalls] at hrel
  have htable : run.table = _ := hrel.table_eq
  refine ⟨_, ⟨calls, rfl⟩, hrel'.table_eq.trans htable.symm, ?_⟩
  rw [htable]
  -- The histories are told the same, and both charts go by them.
  refine (forall₂_span hrel.chart hrel'.chart).imp ?_
  rintro set indexed ⟨history, ⟨hrec, hsize⟩, hix, hsize'⟩
  exact ⟨history, .of_records hrel.nodup hrec hix ⟨hsize, hsize'⟩⟩

/-- For every session there is a store that holds the parse. -/
theorem Parser.session_held (p : Parser σ) (forest : σ) (calls : List Call) :
    Succeeds (do Recognizer.performAll p (← p.start forest) calls) fun x =>
      ∃ store : Store IndexedSet, store.Holds p.grammar x.2 :=
  ((stored_invariant p).session_spec forest calls).mono fun _ ⟨_, _, _, hstored⟩ => hstored.exists_holds

/-! ## Starting over -/

/-- Looked up in their tables, the entries of the sets are the same items, queue by queue. -/
def IndexedSet.Renamed (t t' : RuleTable) (indexed indexed' : IndexedSet) : Prop :=
  ∀ l, ∃ items : List Item, (indexed.queue l).entries.map t.item? = items.map some ∧
    (indexed'.queue l).entries.map t'.item? = items.map some

theorem KeptAlike.map_item?_entries {t : RuleTable} {history : History} {set : ItemSet} {indexed : IndexedSet}
    (h : KeptAlike t history set indexed) (l : Lane) :
    (indexed.queue l).entries.map t.item? = ((set.queue l).toList.map State.toItem).map some := by
  have hfound : ∀ e ∈ history.lane t l, ∃ s, t.state? e = some s := by
    intro e he
    obtain ⟨-, s, hs, -⟩ := History.mem_lane.1 he
    exact ⟨s, hs⟩
  rw [h.entries_eq, h.queue_eq]
  generalize history.lane t l = entries at hfound
  induction entries with
  | nil => rfl
  | cons e entries ih =>
    obtain ⟨s, hs⟩ := hfound e (by simp)
    rw [List.filterMap_cons_some hs, List.map_cons, ih fun e he => hfound e (by simp [he]), RuleTable.item?, hs]
    rfl

theorem ItemSet.map_toItem_queue_of_bare {set set' : ItemSet} (h : set.bare = set'.bare) (l : Lane) :
    (set.queue l).toList.map State.toItem = (set'.queue l).toList.map State.toItem := by
  have hbare : ∀ set : ItemSet, (set.bare.queue l).toList.map State.toItem = (set.queue l).toList.map State.toItem := by
    intro set
    cases l <;> exact List.map_map
  rw [← hbare set, h, hbare]

/-- Charts that differ in their nodes only are held by stores that differ in the places of
rules only. -/
theorem Store.Holds.renamed {store store' : Store IndexedSet} (h : store.Holds g run) (h' : store'.Holds g run')
    (hbare : run.chart.bare = run'.chart.bare) :
    List.Forall₂ (IndexedSet.Renamed run.table run'.table) store.chart.sets store'.chart.sets := by
  have hsets : run.chart.sets.map ItemSet.bare = run'.chart.sets.map ItemSet.bare := congrArg Chart.sets hbare
  rw [← List.forall₂_eq_eq_eq, List.forall₂_map_left_iff, List.forall₂_map_right_iff] at hsets
  refine (forall₂_span (forall₂_span hsets h.sets) h'.sets).imp ?_
  rintro indexed indexed' ⟨set', ⟨set, hset, _, hkept⟩, _, hkept'⟩ l
  refine ⟨_, hkept.map_item?_entries l, ?_⟩
  rw [ItemSet.map_toItem_queue_of_bare hset]
  exact hkept'.map_item?_entries l

/-- In stores that hold a parse that started over and a new one, rules may have different
places. Nothing else differs but nodes: the entries are the same items in the same order. -/
theorem restart_renames_rules (g : Grammar) (leo : Bool) (b : ForestBuilder σ) (s s' : σ) :
    StartsAfresh (⟨g, leo, b⟩ : Parser σ) (Parser.start ⟨g, leo, b⟩ s) (Parser.start ⟨g, leo, b⟩ s') fun _ run run' =>
      ∃ store store' : Store IndexedSet, store.Holds g run ∧ store'.Holds g run' ∧
        List.Forall₂ (IndexedSet.Renamed run.table run'.table) store.chart.sets store'.chart.sets := by
  intro history more
  obtain ⟨past, old, answers, run, run', hold, hrun, hrun', halike, -, hbare, -⟩ :=
    Parser.starts_afresh g leo b s s' history more
  obtain ⟨run₀, hstart, hpast⟩ := bind_eq_ok_iff.1 hold
  have hall := Recognizer.performAll_append hpast hrun
  obtain ⟨store, hstore⟩ :=
    (Parser.session_held ⟨g, leo, b⟩ s (history ++ .restart :: more)).of_ok (bind_eq_ok_iff.2 ⟨run₀, hstart, hall⟩)
  obtain ⟨store', hstore'⟩ := (Parser.session_held ⟨g, leo, b⟩ s' more).of_ok hrun'
  refine ⟨past, old, answers, run, run', hold, hrun, hrun', halike, store, store', hstore, hstore', ?_⟩
  exact hstore.renamed hstore' hbare

end ChartParser
