import ChartParser.Proofs.Store.Indexed
/-!
# Three ways to keep states

Histories, item sets and sets with indices answer every call alike, and what they hold
after any calls is the same: the queues of a set are the lanes of its history, and what
its indices find is what a search finds (`stores_agree`).
-/
namespace ChartParser

/-! ## What a failed call leaves behind -/

namespace Store

variable {S : Type} [StateSet S] {store : Store S} {e : StoredState} {f : Fault}

/-- An insertion that fails changes nothing, except that it may have added an empty set at
the end of the chart. -/
structure KeepsOnFailure (store : Store S) : Prop where
  insert : ∀ {e f}, (store.insert e).1 = .error f → (store.insert e).2 = store
  insertAt : ∀ {k e f}, (store.insertAt k e).1 = .error f → (store.insertAt k e).2 = store ∨
    k = store.chart.size ∧ (store.insertAt k e).2 = { store with chart := ⟨store.chart.sets ++ [StateSet.fresh k]⟩ }

theorem insert_of_error (h : (store.insert e).1 = .error f) : (store.insert e).2 = store := by
  unfold insert at h ⊢
  split
  · rfl
  · rename_i hok
    rw [hok] at h
    cases h

/-- The set may have been added before the insertion into it failed. -/
theorem insertAt_of_error {k : Nat} (h : (store.insertAt k e).1 = .error f) :
    (store.insertAt k e).2 = store ∨
      k = store.chart.size ∧ (store.insertAt k e).2 = { store with chart := ⟨store.chart.sets ++ [StateSet.fresh k]⟩ } := by
  unfold insertAt at h ⊢
  unfold Chart.update at h ⊢
  cases hreach : store.chart.reach k (StateSet.fresh k) with
  | error fault => exact .inl rfl
  | ok c =>
    rw [hreach] at h
    dsimp only at h ⊢
    cases hchange : c.get k >>= store.change e with
    | ok x =>
      rw [hchange] at h
      cases h
    | error fault =>
      unfold Chart.reach at hreach
      split at hreach
      · cases hreach
        exact .inl rfl
      · split at hreach
        · rename_i hend
          cases hreach
          exact .inr ⟨hend, rfl⟩
        · cases hreach

theorem keepsOnFailure (store : Store S) : store.KeepsOnFailure := ⟨insert_of_error, insertAt_of_error⟩

end Store

namespace History.Valid

variable {t : RuleTable} {h : History}

/-- Each state has its place in one queue only. -/
theorem existsUnique_lane (hv : h.Valid t) {e : StoredState} (he : e ∈ h.states) : ∃! l, e ∈ h.lane t l := by
  obtain ⟨s, l, hs, hl⟩ := hv.exists_lane he
  refine ⟨l, History.mem_lane.2 ⟨he, s, hs, hl⟩, fun m hm => ?_⟩
  obtain ⟨-, s', hs', hm⟩ := History.mem_lane.1 hm
  cases hs.symm.trans hs'
  exact Except.ok.inj (hm.symm.trans hl)

theorem nodup_lane (hv : h.Valid t) (l : Lane) : ((h.lane t l).map StoredState.key).Nodup :=
  hv.nodup.sublist (List.filter_sublist.map _)

end History.Valid

/-! ## Searching an item set -/

namespace ItemSet.Records

variable {t : RuleTable} {h : History} {set : ItemSet}

theorem waiting_eq (hrec : set.Records t h) (A : NonTerminal) :
    set.waiting A = ((h.lane t .predictions).filter (t.waits A)).filterMap t.state? := by
  have hqueue : set.predictions.toList = (h.lane t .predictions).filterMap t.state? := hrec.queue_eq .predictions
  rw [waiting, hqueue, List.filter_filterMap, List.filterMap_filter]
  refine List.filterMap_congr fun e he => ?_
  obtain ⟨-, s, hs, -⟩ := History.mem_lane.1 he
  simp only [RuleTable.waits, hs, Option.any_some, Option.filter_some]

theorem transition?_eq (hrec : set.Records t h) (A : NonTerminal) :
    set.transition? A = ((h.lane t .transitions).find? (·.kind = .transitive A)).bind t.state? := by
  have hqueue : set.transitions.toList = (h.lane t .transitions).filterMap t.state? := hrec.queue_eq .transitions
  rw [transition?, hqueue]
  have hstates : ∀ e ∈ h.lane t .transitions, ∃ s, t.state? e = some s ∧ s.kind = e.kind := by
    intro e he
    obtain ⟨-, s, hs, -⟩ := History.mem_lane.1 he
    obtain ⟨r, -, rfl⟩ := RuleTable.state?_eq_some_iff.1 hs
    exact ⟨_, hs, rfl⟩
  generalize h.lane t .transitions = entries at hstates
  induction entries with
  | nil => rfl
  | cons e rest ih =>
    obtain ⟨s, hs, hkind⟩ := hstates e (by simp)
    rw [List.filterMap_cons_some hs, List.find?_cons, List.find?_cons, hkind]
    cases decide (e.kind = .transitive A) with
    | true => exact hs.symm
    | false => exact ih fun a ha => hstates a (by simp [ha])

theorem nodup_queue (hrec : set.Records t h) (ht : t.rules.Nodup) (l : Lane) :
    ((set.queue l).toList.map State.toItem).Nodup := by
  rw [List.Nodup, List.pairwise_map, hrec.queue_eq, List.pairwise_filterMap]
  refine (List.pairwise_map.1 (hrec.valid.nodup_lane l)).imp fun {a a'} hkey s hs s' hs' hitem => hkey ?_
  obtain ⟨r, hr, rfl⟩ := RuleTable.state?_eq_some_iff.1 hs'
  exact (History.key_eq_iff ht hr hs).2 hitem

end ItemSet.Records

theorem ItemSet.soleWaiting?_eq (set : ItemSet) (A : NonTerminal) :
    set.soleWaiting? A = if (set.waiting A).length = 1 then (set.waiting A).head? else none := by
  unfold soleWaiting?
  split
  · rename_i s hs
    rw [hs]
    rfl
  · rename_i hmany
    rw [if_neg fun hone => ?_]
    obtain ⟨s, hs⟩ := List.length_eq_one_iff.1 hone
    exact hmany s hs

/-! ## All three together -/

/-- The sets have the states of the history and find what is to be found there, and they
go on alike. -/
structure KeptAlike (t : RuleTable) (h : History) (set : ItemSet) (indexed : IndexedSet) : Prop where
  location_eq : set.location = h.location ∧ indexed.location = h.location
  size_eq : set.size = h.states.length ∧ indexed.size = h.states.length
  /-- No two states are equal. -/
  nodup : (h.states.map StoredState.key).Nodup
  existsUnique_lane : ∀ e ∈ h.states, ∃! l, e ∈ h.lane t l
  queue_eq : ∀ l, (set.queue l).toList = (h.lane t l).filterMap t.state?
  nodup_queue : ∀ l, ((set.queue l).toList.map State.toItem).Nodup
  entries_eq : ∀ l, (indexed.queue l).entries = h.lane t l
  seen_eq : ∀ l, (indexed.queue l).seen = ((indexed.queue l).entries.map StoredState.key).toFinset
  /-- A memoized path that ends with an incomplete rule is a fault. -/
  insert_misplaced : ∀ {e r}, t.rule e.rule = .ok r → e.misplaced r = true →
    set.insert (e.withRule r) = .error (.incompleteTransitive r) ∧ indexed.insert r e = .error (.incompleteTransitive r)
  /-- Every other state has a lane. There it is taken if it is new, and else nothing changes. -/
  insert_eq : ∀ {e r}, t.rule e.rule = .ok r → e.misplaced r = false → ∃ l, (e.withRule r).lane = .ok l ∧
    set.insert (e.withRule r) = .ok
      (if h.contains e then (false, set) else (true, set.withQueue l ⟨(set.queue l).toList ++ [e.withRule r]⟩)) ∧
    indexed.insert r e = .ok (if h.contains e then (false, indexed) else (true, indexed.noted l r e))
  waitingFor_eq : ∀ A i, indexed.waitingFor A i = .ok ((h.lane t .predictions).filter (t.waits A))[i]?
  waitingCount_eq : ∀ A, indexed.waitingCount A = ((h.lane t .predictions).filter (t.waits A)).length
  uniqueWaiting_eq : ∀ A, indexed.uniqueWaiting A =
    .ok (if indexed.waitingCount A = 1 then ((h.lane t .predictions).filter (t.waits A)).head? else none)
  findTransition_eq : ∀ A, indexed.findTransition A = .ok ((h.lane t .transitions).find? (·.kind = .transitive A))
  waiting_eq : ∀ A, set.waiting A = ((h.lane t .predictions).filter (t.waits A)).filterMap t.state?
  soleWaiting?_eq : ∀ A, set.soleWaiting? A = if (set.waiting A).length = 1 then (set.waiting A).head? else none
  transition?_eq : ∀ A, set.transition? A = ((h.lane t .transitions).find? (·.kind = .transitive A)).bind t.state?

namespace KeptAlike

variable {t : RuleTable} {h : History} {set : ItemSet} {indexed : IndexedSet}

theorem of_records (ht : t.rules.Nodup) (hrec : set.Records t h) (hix : indexed.Indexes t h)
    (hsize : set.size = h.states.length ∧ indexed.size = h.states.length) : KeptAlike t h set indexed where
  location_eq := ⟨hrec.location_eq, hix.location_eq⟩
  size_eq := hsize
  nodup := hrec.valid.nodup
  existsUnique_lane _ := hrec.valid.existsUnique_lane
  queue_eq := hrec.queue_eq
  nodup_queue := hrec.nodup_queue ht
  entries_eq := hix.entries_eq
  seen_eq := hix.seen_eq
  insert_misplaced {e r} _ hplace := by
    simp only [ItemSet.insert, IndexedSet.insert, StoredState.lane_of_misplaced hplace, hplace]
    exact ⟨rfl, rfl⟩
  insert_eq {e r} hr hplace := by
    replace hr := fetch_eq_ok_iff.1 hr
    obtain ⟨l, hl⟩ := StoredState.exists_lane hplace
    have hseen := hix.mem_seen_iff ht hr hl
    refine ⟨l, hl, ?_, ?_⟩
    · cases hnew : h.contains e with
      | true => exact hrec.insert_known ht hr hl hnew
      | false => exact hrec.insert_new ht hr hl hnew
    · simp only [IndexedSet.insert_eq hl, hseen]
  waitingFor_eq := hix.waitingFor_eq
  waitingCount_eq := hix.waitingCount_eq
  uniqueWaiting_eq := hix.uniqueWaiting_eq
  findTransition_eq := hix.findTransition_eq
  waiting_eq := hrec.waiting_eq
  soleWaiting?_eq := set.soleWaiting?_eq
  transition?_eq := hrec.transition?_eq

end KeptAlike

/-- Related sets stay equally large. -/
theorem Simulates.and_size {S T : Type} [StateSet S] [StateSet T] {R : RuleTable → S → T → Prop} (hR : Simulates R) :
    Simulates fun t (s : S) (s' : T) => R t s s' ∧ StateSet.size s' = StateSet.size s where
  fresh t k := ⟨hR.fresh t k, by rw [StateSet.size_fresh, StateSet.size_fresh]⟩
  grow ht h := ⟨hR.grow ht h.1, h.2⟩
  insert {t s s' r e} ht hr h := by
    have hins := hR.insert ht hr h.1
    generalize hx : StateSet.insert s r e = x at hins
    generalize hy : StateSet.insert s' r e = y at hins
    cases hins with
    | error fault => exact .error fault
    | @ok a b hab =>
      refine .ok ⟨hab.1, hab.2, ?_⟩
      rw [StateSet.size_of_insert hx, StateSet.size_of_insert hy, hab.1, h.2]

/-- For every grammar and after any calls, a store with histories, one with item sets and
one with indexed sets have given the same answers, have the same table, and keep the
same states. Each set and chart has as many states as were new. A call that fails
changes nothing, except that it may have added an empty set at the end of the chart. -/
theorem stores_agree (g : Grammar) (location : Nat) (calls : List StoreCall) :
    ∃ answers, ∃ (history : Store History) (items : Store ItemSet) (indexed : Store IndexedSet),
      (Store.empty History location).performAll g calls = (answers, history) ∧
      (Store.empty ItemSet location).performAll g calls = (answers, items) ∧
      (Store.empty IndexedSet location).performAll g calls = (answers, indexed) ∧
      items.table = history.table ∧ indexed.table = history.table ∧
      KeptAlike history.table history.set items.set indexed.set ∧
      items.chart.size = history.chart.size ∧ indexed.chart.size = history.chart.size ∧
      (∀ k h set ix, history.chart.get? k = some h → items.chart.get? k = some set → indexed.chart.get? k = some ix →
        KeptAlike history.table h set ix) ∧
      items.set.size = answers.countP StoreAnswer.isNew ∧
      indexed.set.size = answers.countP StoreAnswer.isNew ∧
      items.chart.totalStates = answers.countP StoreAnswer.isNewAt ∧
      indexed.chart.total IndexedSet.size = answers.countP StoreAnswer.isNewAt ∧
      items.KeepsOnFailure ∧ indexed.KeepsOnFailure := by
  have hitems := ItemSet.simulates.and_size
  have hindexed := IndexedSet.simulates.and_size
  obtain ⟨hanswers, hrel⟩ := hitems.performAll (hitems.empty location) g calls
  obtain ⟨hanswers', hrel'⟩ := hindexed.performAll (hindexed.empty location) g calls
  obtain ⟨hset, hchart⟩ := (Store.empty ItemSet location).size_performAll g calls
  obtain ⟨hset', hchart'⟩ := (Store.empty IndexedSet location).size_performAll g calls
  refine ⟨_, _, _, _, rfl, Prod.ext hanswers rfl, Prod.ext hanswers' rfl, hrel.table_eq, hrel'.table_eq,
    .of_records hrel.nodup hrel.set.1 hrel'.set.1 ⟨hrel.set.2, hrel'.set.2⟩, hrel.chart.length_eq.symm,
    hrel'.chart.length_eq.symm, fun k h set ix hh hs hix => ?_, ?_, ?_, ?_, ?_, Store.keepsOnFailure _,
    Store.keepsOnFailure _⟩
  · have hrec := hrel.get hh hs
    have hix' := hrel'.get hh hix
    exact .of_records hrel.nodup hrec.1 hix'.1 ⟨hrec.2, hix'.2⟩
  · rw [← hanswers]
    exact hset.trans (Nat.zero_add _)
  · rw [← hanswers']
    exact hset'.trans (Nat.zero_add _)
  · rw [← hanswers]
    exact hchart.trans (Nat.zero_add _)
  · rw [← hanswers']
    exact hchart'.trans (Nat.zero_add _)

end ChartParser
