import ChartParser.Proofs.Store.Basic
/-!
# Sets and their histories

A history is the plainest way to keep states: one list of what was new, in order of
insertion. It says when a state is new and when it cannot be inserted at all. An item
set splits the same list into queues, one for each lane (`ItemSet.Records`). States are
told apart by the places of their rules in the one and by the rules themselves in the
other, which is the same since a table has each rule once.
-/
namespace ChartParser

/-- The states that were new at a location, oldest first. -/
structure History where
  location : Nat
  states : List StoredState

/-- A memoized path ends with a complete rule. -/
def StoredState.misplaced (e : StoredState) (r : DottedRule) : Bool := (e.withRule r).isTransitive && !r.isComplete

namespace History

variable {h : History} {r : DottedRule} {e : StoredState}

def contains (h : History) (e : StoredState) : Bool := h.states.any (·.key = e.key)

/-- A state is new unless an equal one is there, and is then added at the end. -/
def insert (h : History) (r : DottedRule) (e : StoredState) : Except Fault (Bool × History) :=
  if e.misplaced r then throw (.incompleteTransitive r)
  else if h.contains e then return (false, h)
  else return (true, { h with states := h.states ++ [e] })

theorem contains_iff : h.contains e = true ↔ ∃ a ∈ h.states, a.key = e.key := by
  simp [contains]

theorem size_of_insert {h' : History} {new : Bool} (hins : h.insert r e = .ok (new, h')) :
    h'.states.length = h.states.length + new.toNat := by
  unfold insert at hins
  split at hins
  · cases hins
  · split at hins
    · cases hins
      rfl
    · cases hins
      simp

end History

instance : StateSet History where
  fresh k := ⟨k, []⟩
  insert := History.insert
  size h := h.states.length
  size_fresh _ := rfl
  size_of_insert := History.size_of_insert

instance : StateSet ItemSet where
  fresh := .empty
  insert set r e := set.insert (e.withRule r)
  size := ItemSet.size
  size_fresh _ := rfl
  size_of_insert := ItemSet.size_of_insert

/-! ## Lanes -/

/-- The item belongs to the queue of the lane. -/
def Item.isIn (i : Item) (l : Lane) : Bool :=
  match i.lane with
  | .ok l' => l' = l
  | .error _ => false

theorem Item.isIn_iff {i : Item} {l : Lane} : i.isIn l = true ↔ i.lane = .ok l := by
  unfold isIn
  split <;> simp_all

theorem StoredState.lane_of_misplaced {e : StoredState} {r : DottedRule} (h : e.misplaced r = true) :
    (e.withRule r).lane = .error (.incompleteTransitive r) := by
  obtain ⟨hkind, hincomplete⟩ := Bool.and_eq_true_iff.1 h
  cases hdot : r.postDot? with
  | none =>
    rw [DottedRule.postDot?_eq_none_iff.1 hdot] at hincomplete
    cases hincomplete
  | some s =>
    obtain ⟨rule, origin, kind, node⟩ := e
    cases kind with
    | normal => cases hkind
    | transitive A => simp only [Item.lane, withRule, hdot]

theorem StoredState.exists_lane {e : StoredState} {r : DottedRule} (h : e.misplaced r = false) :
    ∃ l, (e.withRule r).lane = .ok l := by
  obtain ⟨rule, origin, kind, node⟩ := e
  cases kind with
  | normal =>
    obtain ⟨l, hl, -⟩ := Item.exists_lane (i := ⟨r, origin, .normal⟩) rfl
    exact ⟨l, hl⟩
  | transitive A =>
    have hcomplete : r.isComplete = true := by simpa [misplaced, withRule, Item.isTransitive, Item.recognized?] using h
    exact ⟨.transitions, Item.lane_eq_transitions_iff.2 ⟨⟨A, rfl⟩, hcomplete⟩⟩

namespace History

variable {t t' : RuleTable} {h : History} {r : DottedRule} {e : StoredState} {l : Lane}

/-- The states of a lane. -/
def lane (t : RuleTable) (h : History) (l : Lane) : List StoredState :=
  h.states.filter fun e => (t.state? e).any (·.isIn l)

theorem mem_lane : e ∈ h.lane t l ↔ e ∈ h.states ∧ ∃ s, t.state? e = some s ∧ s.lane = .ok l := by
  simp [lane, Option.any_eq_true, Item.isIn_iff]

/-- A new state comes at the end of its lane. -/
theorem lane_insert (hr : t.rules[e.rule]? = some r) :
    lane t { h with states := h.states ++ [e] } l = h.lane t l ++ if (e.withRule r).isIn l then [e] else [] := by
  have hstate : t.state? e = some (e.withRule r) := RuleTable.state?_eq_some_iff.2 ⟨r, hr, rfl⟩
  rw [lane, List.filter_append, List.filter_singleton, hstate, Option.any_some, cond_eq_ite]
  rfl

/-- No two states are equal, and each has a place in a queue. -/
structure Valid (t : RuleTable) (h : History) : Prop where
  nodup : (h.states.map StoredState.key).Nodup
  exists_lane : ∀ {e}, e ∈ h.states → ∃ s l, t.state? e = some s ∧ s.lane = .ok l

namespace Valid

theorem lane_eq_of_prefix (hv : h.Valid t) (ht : t.rules <+: t'.rules) (l : Lane) : h.lane t' l = h.lane t l := by
  refine List.filter_congr fun e he => ?_
  obtain ⟨s, -, hs, -⟩ := hv.exists_lane he
  rw [hs, RuleTable.state?_of_prefix ht hs]

theorem grow (hv : h.Valid t) (ht : t.rules <+: t'.rules) : h.Valid t' := by
  refine ⟨hv.nodup, fun he => ?_⟩
  obtain ⟨s, l, hs, hl⟩ := hv.exists_lane he
  exact ⟨s, l, RuleTable.state?_of_prefix ht hs, hl⟩

theorem insert (hv : h.Valid t) (hr : t.rules[e.rule]? = some r) (hl : (e.withRule r).lane = .ok l)
    (hnew : h.contains e = false) : Valid t { h with states := h.states ++ [e] } := by
  refine ⟨?_, fun ha => ?_⟩
  · rw [List.map_append, List.nodup_append]
    refine ⟨hv.nodup, by simp, ?_⟩
    intro k hk k' hk' heq
    obtain ⟨a, ha, rfl⟩ := List.mem_map.1 hk
    obtain rfl : k' = e.key := List.mem_singleton.1 hk'
    rw [contains_iff.2 ⟨a, ha, heq⟩] at hnew
    cases hnew
  · rcases List.mem_append.1 ha with ha | ha
    · exact hv.exists_lane ha
    · rw [List.mem_singleton.1 ha]
      exact ⟨_, l, RuleTable.state?_eq_some_iff.2 ⟨r, hr, rfl⟩, hl⟩

end Valid

/-- Stored states are equal just when their items are. -/
theorem key_eq_iff (ht : t.rules.Nodup) (hr : t.rules[e.rule]? = some r) {a : StoredState} {s : State}
    (hs : t.state? a = some s) : a.key = e.key ↔ s.toItem = (e.withRule r).toItem := by
  obtain ⟨r', hr', rfl⟩ := RuleTable.state?_eq_some_iff.1 hs
  constructor
  · intro hkey
    simp only [StoredState.key, Prod.mk.injEq] at hkey
    obtain ⟨hrule, horigin, hkind⟩ := hkey
    rw [hrule, hr, Option.some.injEq] at hr'
    simp only [StoredState.withRule, hr', horigin, hkind]
  · intro hitem
    simp only [StoredState.withRule, Item.mk.injEq] at hitem
    obtain ⟨rfl, horigin, hkind⟩ := hitem
    have hlt := (List.getElem?_eq_some_iff.1 hr').1
    have hrule : a.rule = e.rule := (List.getElem?_inj hlt ht).1 (hr'.trans hr.symm)
    simp only [StoredState.key, hrule, horigin, hkind]

/-- Equal states are in one lane. -/
theorem contains_iff_lane (hv : h.Valid t) (ht : t.rules.Nodup) (hr : t.rules[e.rule]? = some r)
    (hl : (e.withRule r).lane = .ok l) : h.contains e = true ↔ ∃ a ∈ h.lane t l, a.key = e.key := by
  rw [contains_iff]
  constructor
  · rintro ⟨a, ha, hkey⟩
    obtain ⟨s, -, hs, -⟩ := hv.exists_lane ha
    have hitem := (key_eq_iff ht hr hs).1 hkey
    refine ⟨a, mem_lane.2 ⟨ha, s, hs, ?_⟩, hkey⟩
    rw [hitem]
    exact hl
  · rintro ⟨a, ha, hkey⟩
    exact ⟨a, (mem_lane.1 ha).1, hkey⟩

end History

/-! ## Item sets -/

/-- The set has the states of the history, lane by lane. -/
structure ItemSet.Records (t : RuleTable) (h : History) (set : ItemSet) : Prop where
  valid : h.Valid t
  location_eq : set.location = h.location
  queue_eq : ∀ l, (set.queue l).toList = (h.lane t l).filterMap t.state?

namespace ItemSet.Records

variable {t t' : RuleTable} {h : History} {set : ItemSet} {r : DottedRule} {e : StoredState} {l : Lane}

theorem fresh (t : RuleTable) (k : Nat) : Records t ⟨k, []⟩ (.empty k) :=
  ⟨⟨List.nodup_nil, by simp⟩, rfl, fun l => by cases l <;> rfl⟩

theorem grow (ht : t.rules <+: t'.rules) (hrec : set.Records t h) : set.Records t' h := by
  refine ⟨hrec.valid.grow ht, hrec.location_eq, fun l => ?_⟩
  rw [hrec.queue_eq, hrec.valid.lane_eq_of_prefix ht]
  refine List.filterMap_congr fun e he => ?_
  obtain ⟨-, s, hs, -⟩ := History.mem_lane.1 he
  rw [hs, RuleTable.state?_of_prefix ht hs]

/-- The queue of its lane has a state if the history has. -/
theorem contains_eq (hrec : set.Records t h) (ht : t.rules.Nodup) (hr : t.rules[e.rule]? = some r)
    (hl : (e.withRule r).lane = .ok l) : (set.queue l).contains (e.withRule r) = h.contains e := by
  rw [Bool.eq_iff_iff, History.contains_iff_lane hrec.valid ht hr hl, Queue.contains,
    List.contains_iff_exists_mem_beq, hrec.queue_eq]
  simp only [State.beq_iff, List.mem_filterMap]
  constructor
  · rintro ⟨s, ⟨a, ha, hs⟩, hitem⟩
    exact ⟨a, ha, (History.key_eq_iff ht hr hs).2 hitem.symm⟩
  · rintro ⟨a, ha, hkey⟩
    obtain ⟨-, s, hs, -⟩ := History.mem_lane.1 ha
    exact ⟨s, ⟨a, ha, hs⟩, ((History.key_eq_iff ht hr hs).1 hkey).symm⟩

theorem insert_known (hrec : set.Records t h) (ht : t.rules.Nodup) (hr : t.rules[e.rule]? = some r)
    (hl : (e.withRule r).lane = .ok l) (hknown : h.contains e = true) : set.insert (e.withRule r) = .ok (false, set) := by
  have hqueue : (set.queue l).insert (e.withRule r) = (false, set.queue l) :=
    Queue.insert_of_contains (by rw [hrec.contains_eq ht hr hl, hknown])
  have hset : set.withQueue l (set.queue l) = set := by cases l <;> rfl
  simp only [insert, hl, bind, Except.bind, hqueue, hset]
  rfl

/-- A new state comes at the end of the queue of its lane. -/
theorem insert_new (hrec : set.Records t h) (ht : t.rules.Nodup) (hr : t.rules[e.rule]? = some r)
    (hl : (e.withRule r).lane = .ok l) (hnew : h.contains e = false) :
    set.insert (e.withRule r) = .ok (true, set.withQueue l ⟨(set.queue l).toList ++ [e.withRule r]⟩) := by
  have hqueue : (set.queue l).insert (e.withRule r) = (true, ⟨(set.queue l).toList ++ [e.withRule r]⟩) :=
    Queue.insert_of_not_contains (by rw [hrec.contains_eq ht hr hl, hnew])
  simp only [insert, hl, bind, Except.bind, hqueue]
  rfl

theorem inserted (hrec : set.Records t h) (hr : t.rules[e.rule]? = some r) (hl : (e.withRule r).lane = .ok l)
    (hnew : h.contains e = false) :
    (set.withQueue l ⟨(set.queue l).toList ++ [e.withRule r]⟩).Records t { h with states := h.states ++ [e] } := by
  have hstate : t.state? e = some (e.withRule r) := RuleTable.state?_eq_some_iff.2 ⟨r, hr, rfl⟩
  refine ⟨hrec.valid.insert hr hl hnew, by simpa using hrec.location_eq, fun m => ?_⟩
  rw [queue_withQueue, History.lane_insert hr, List.filterMap_append, ← hrec.queue_eq]
  by_cases hm : m = l
  · subst hm
    simp [Item.isIn_iff.2 hl, hstate]
  · have hout : (e.withRule r).isIn m = false := by
      rw [Bool.eq_false_iff, ne_eq, Item.isIn_iff, hl, Except.ok.injEq]
      exact Ne.symm hm
    simp [hm, hout]

end ItemSet.Records

theorem ItemSet.simulates : Simulates fun t (h : History) (set : ItemSet) => set.Records t h where
  fresh := Records.fresh
  grow := Records.grow
  insert {t h set r e} ht hr hrec := by
    show InStep _ (h.insert r e) (set.insert (e.withRule r))
    unfold History.insert
    cases hplace : e.misplaced r with
    | true =>
      simp only [insert, StoredState.lane_of_misplaced hplace]
      exact .error _
    | false =>
      obtain ⟨l, hl⟩ := StoredState.exists_lane hplace
      cases hnew : h.contains e with
      | true =>
        rw [hrec.insert_known ht hr hl hnew]
        exact .ok ⟨rfl, hrec⟩
      | false =>
        rw [hrec.insert_new ht hr hl hnew]
        exact .ok ⟨rfl, hrec.inserted hr hl hnew⟩

end ChartParser
