import Mathlib.Data.Finset.Dedup
import Mathlib.Data.Finset.Insert
import Mathlib.Logic.Function.Basic
import ChartParser.Proofs.Store.History
/-!
# Sets with indices

A set may keep more than its queues, so that it need not search them: what each queue has
been given, where the states stand that wait for a non-terminal, and where the first
memoized path for it stands. All of this must be kept up with the queues. It is
(`IndexedSet.simulates`), so no position points beyond its queue, and the indices find
what a search through the history finds (`IndexedSet.Indexes.waitingFor_eq`,
`IndexedSet.Indexes.findTransition_eq`).
-/
namespace ChartParser

/-- States in order of insertion, with what they are compared by. -/
structure IndexedQueue where
  entries : List StoredState
  seen : Finset (RuleId × Nat × ItemKind)

namespace IndexedQueue

def empty : IndexedQueue := ⟨[], ∅⟩

def push (q : IndexedQueue) (e : StoredState) : IndexedQueue := ⟨q.entries ++ [e], insert e.key q.seen⟩

/-- Appends `e` unless an equal entry was seen; says whether it did. -/
def offer (q : IndexedQueue) (e : StoredState) : Bool × IndexedQueue :=
  if e.key ∈ q.seen then (false, q) else (true, q.push e)

end IndexedQueue

/-- The states at one location, with indices. -/
structure IndexedSet where
  location : Nat
  queue : Lane → IndexedQueue
  /-- The places of the predictions that wait for a non-terminal. -/
  waiting : NonTerminal → List Nat
  /-- The place of the first memoized path for a non-terminal. -/
  transitionAt : NonTerminal → Option Nat

namespace IndexedSet

def fresh (location : Nat) : IndexedSet := ⟨location, fun _ => .empty, fun _ => [], fun _ => none⟩

/-- The number of states in a lane. -/
def count (set : IndexedSet) (l : Lane) : Nat := (set.queue l).entries.length

def size (set : IndexedSet) : Nat :=
  set.count .predictions + set.count .scans + set.count .completions + set.count .transitions

/-- Inserts a state into the queue of a lane. -/
def put (set : IndexedSet) (l : Lane) (e : StoredState) : Bool × IndexedSet :=
  let (new, q) := (set.queue l).offer e
  (new, { set with queue := Function.update set.queue l q })

/-- Inserts a state where its rule says, and enters it in the index that its queue has. -/
def insert (set : IndexedSet) (r : DottedRule) (e : StoredState) : Except Fault (Bool × IndexedSet) :=
  if e.misplaced r then throw (.incompleteTransitive r)
  else
    match r.postDot?, e.kind with
    | some (.nonTerminal A), _ =>
      match set.put .predictions e with
      | (false, set) => .ok (false, set)
      | (true, set') =>
        .ok (true, { set' with
          waiting := Function.update set.waiting A (set.waiting A ++ [set.count .predictions]) })
    | some (.terminal _), _ => .ok (set.put .scans e)
    | none, .transitive A =>
      match set.put .transitions e with
      | (false, set) => .ok (false, set)
      | (true, set') =>
        .ok (true, { set' with
          transitionAt := Function.update set.transitionAt A
            (some ((set.transitionAt A).getD (set.count .transitions))) })
    | none, .normal => .ok (set.put .completions e)

/-- The `i`th state that waits for `A`. -/
def waitingFor (set : IndexedSet) (A : NonTerminal) (i : Nat) : Except Fault (Option StoredState) :=
  match (set.waiting A)[i]? with
  | none => .ok none
  | some n => some <$> fetch (set.queue .predictions).entries n

def waitingCount (set : IndexedSet) (A : NonTerminal) : Nat := (set.waiting A).length

/-- The state that waits for `A`, if there is exactly one. -/
def uniqueWaiting (set : IndexedSet) (A : NonTerminal) : Except Fault (Option StoredState) :=
  match set.waiting A with
  | [n] => some <$> fetch (set.queue .predictions).entries n
  | _ => .ok none

/-- The first memoized path for `A`. -/
def findTransition (set : IndexedSet) (A : NonTerminal) : Except Fault (Option StoredState) :=
  match set.transitionAt A with
  | none => .ok none
  | some n => some <$> fetch (set.queue .transitions).entries n

variable {set : IndexedSet} {l : Lane} {e : StoredState} {r : DottedRule}

theorem put_known (h : e.key ∈ (set.queue l).seen) : set.put l e = (false, set) := by
  simp only [put, IndexedQueue.offer, if_pos h, Function.update_eq_self]

theorem put_new (h : e.key ∉ (set.queue l).seen) :
    set.put l e = (true, { set with queue := Function.update set.queue l ((set.queue l).push e) }) := by
  simp only [put, IndexedQueue.offer, if_neg h]

/-- The set with a new state in a lane and in the index for it. -/
def noted (set : IndexedSet) (l : Lane) (r : DottedRule) (e : StoredState) : IndexedSet where
  location := set.location
  queue := Function.update set.queue l ((set.queue l).push e)
  waiting A := set.waiting A ++
    if l = .predictions ∧ r.postDot? = some (.nonTerminal A) then [set.count .predictions] else []
  transitionAt A := (set.transitionAt A).or
    (if l = .transitions ∧ e.kind = .transitive A then some (set.count .transitions) else none)

/-- A state is taken by the queue of its lane, or it changes nothing. -/
theorem insert_eq (hl : (e.withRule r).lane = .ok l) :
    set.insert r e = .ok (if e.key ∈ (set.queue l).seen then (false, set) else (true, set.noted l r e)) := by
  have hplace : e.misplaced r = false := by
    cases hplace : e.misplaced r with
    | false => rfl
    | true =>
      rw [StoredState.lane_of_misplaced hplace] at hl
      cases hl
  unfold insert
  rw [hplace]
  cases l with
  | predictions =>
    obtain ⟨-, A, hdot⟩ := Item.lane_eq_predictions_iff.1 hl
    replace hdot : r.postDot? = some (.nonTerminal A) := hdot
    have hwaiting : (fun B => set.waiting B ++ if A = B then [set.count .predictions] else []) =
        Function.update set.waiting A (set.waiting A ++ [set.count .predictions]) := by
      funext B
      by_cases hB : A = B
      · subst hB
        simp
      · simp [hB, Function.update_of_ne (Ne.symm hB)]
    by_cases hseen : e.key ∈ (set.queue .predictions).seen
    · simp [hdot, put_known hseen, hseen]
    · simp [hdot, put_new hseen, hseen, noted, hwaiting]
  | scans =>
    obtain ⟨-, t, hdot⟩ := Item.lane_eq_scans_iff.1 hl
    replace hdot : r.postDot? = some (.terminal t) := hdot
    by_cases hseen : e.key ∈ (set.queue .scans).seen
    · simp [hdot, put_known hseen, hseen]
    · simp [hdot, put_new hseen, hseen, noted]
  | completions =>
    obtain ⟨hkind, hcomplete⟩ := Item.lane_eq_completions_iff.1 hl
    replace hkind : e.kind = .normal := hkind
    have hdot : r.postDot? = none := DottedRule.postDot?_eq_none_iff.2 hcomplete
    by_cases hseen : e.key ∈ (set.queue .completions).seen
    · simp [hdot, hkind, put_known hseen, hseen]
    · simp [hdot, hkind, put_new hseen, hseen, noted]
  | transitions =>
    obtain ⟨⟨A, hkind⟩, hcomplete⟩ := Item.lane_eq_transitions_iff.1 hl
    replace hkind : e.kind = .transitive A := hkind
    have hdot : r.postDot? = none := DottedRule.postDot?_eq_none_iff.2 hcomplete
    have htransitionAt : (fun B => (set.transitionAt B).or (if A = B then some (set.count .transitions) else none)) =
        Function.update set.transitionAt A (some ((set.transitionAt A).getD (set.count .transitions))) := by
      funext B
      by_cases hB : A = B
      · subst hB
        cases set.transitionAt A <;> simp
      · simp [hB, Function.update_of_ne (Ne.symm hB)]
    by_cases hseen : e.key ∈ (set.queue .transitions).seen
    · simp [hdot, hkind, put_known hseen, hseen]
    · simp [hdot, hkind, put_new hseen, hseen, noted, htransitionAt]

theorem size_noted (set : IndexedSet) (l : Lane) (r : DottedRule) (e : StoredState) :
    (set.noted l r e).size = set.size + 1 := by
  cases l <;> simp [size, count, noted, IndexedQueue.push] <;> omega

theorem size_of_insert {set' : IndexedSet} {new : Bool} (h : set.insert r e = .ok (new, set')) :
    set'.size = set.size + new.toNat := by
  cases hplace : e.misplaced r with
  | true =>
    rw [insert, hplace] at h
    cases h
  | false =>
    obtain ⟨l, hl⟩ := StoredState.exists_lane hplace
    rw [insert_eq hl] at h
    split at h
    · cases h
      rfl
    · cases h
      exact set.size_noted l r e

instance : StateSet IndexedSet where
  fresh := fresh
  insert := insert
  size := size
  size_fresh _ := rfl
  size_of_insert := size_of_insert

end IndexedSet

/-! ## Positions -/

/-- The entries at the given positions, which are all there. -/
def EntriesAt {α : Type} (l : List α) (positions : List Nat) (found : List α) : Prop :=
  positions.map (l[·]?) = found.map some

namespace EntriesAt

variable {α : Type} {l found : List α} {positions : List Nat}

theorem fetch_eq (h : EntriesAt l positions found) {i n : Nat} (hn : positions[i]? = some n) :
    ∃ a, found[i]? = some a ∧ fetch l n = .ok a := by
  have hi : (positions.map (l[·]?))[i]? = (found.map some)[i]? := congrArg (·[i]?) h
  rw [List.getElem?_map, List.getElem?_map, hn, Option.map_some] at hi
  obtain ⟨a, ha, hl⟩ := Option.map_eq_some_iff.1 hi.symm
  exact ⟨a, ha, fetch_eq_ok_iff.2 hl.symm⟩

theorem length_eq (h : EntriesAt l positions found) : positions.length = found.length := by
  have hlength := congrArg List.length h
  rwa [List.length_map, List.length_map] at hlength

/-- Positions stay when the list gets longer. -/
theorem append (h : EntriesAt l positions found) (more : List α) : EntriesAt (l ++ more) positions found := by
  rw [EntriesAt, ← h]
  refine List.map_congr_left fun n hn => ?_
  have hmem : l[n]? ∈ found.map some := h ▸ List.mem_map_of_mem hn
  obtain ⟨a, -, ha⟩ := List.mem_map.1 hmem
  exact List.getElem?_append_left (List.getElem?_eq_some_iff.1 ha.symm).1

/-- The last entry of a list that got longer is the one after all that were there. -/
theorem snoc (h : EntriesAt l positions found) (a : α) :
    EntriesAt (l ++ [a]) (positions ++ [l.length]) (found ++ [a]) := by
  rw [EntriesAt, List.map_append, h.append [a], List.map_append]
  simp

end EntriesAt

/-! ## Sets whose indices are in order -/

/-- The symbol after the dot of the state stored as `e` is `A`. -/
def RuleTable.waits (t : RuleTable) (A : NonTerminal) (e : StoredState) : Bool := (t.state? e).any (·.waitsFor A)

/-- The set has the states of the history, lane by lane, and its indices are those of its
queues. -/
structure IndexedSet.Indexes (t : RuleTable) (h : History) (set : IndexedSet) : Prop where
  valid : h.Valid t
  location_eq : set.location = h.location
  entries_eq : ∀ l, (set.queue l).entries = h.lane t l
  seen_eq : ∀ l, (set.queue l).seen = ((set.queue l).entries.map StoredState.key).toFinset
  waiting : ∀ A, EntriesAt (set.queue .predictions).entries (set.waiting A)
    ((h.lane t .predictions).filter (t.waits A))
  transitionAt : ∀ A, EntriesAt (set.queue .transitions).entries (set.transitionAt A).toList
    ((h.lane t .transitions).find? (·.kind = .transitive A)).toList

namespace IndexedSet.Indexes

variable {t t' : RuleTable} {h : History} {set : IndexedSet} {r : DottedRule} {e : StoredState} {l : Lane}
  {A : NonTerminal}

theorem fresh (t : RuleTable) (k : Nat) : Indexes t ⟨k, []⟩ (.fresh k) :=
  ⟨⟨List.nodup_nil, by simp⟩, rfl, fun _ => rfl, fun _ => rfl, fun _ => rfl, fun _ => rfl⟩

theorem grow (ht : t.rules <+: t'.rules) (hix : set.Indexes t h) : set.Indexes t' h := by
  have hlane := hix.valid.lane_eq_of_prefix ht
  have hwaits : ∀ A, (h.lane t .predictions).filter (t'.waits A) = (h.lane t .predictions).filter (t.waits A) := by
    intro A
    refine List.filter_congr fun e he => ?_
    obtain ⟨-, s, hs, -⟩ := History.mem_lane.1 he
    rw [RuleTable.waits, RuleTable.waits, hs, RuleTable.state?_of_prefix ht hs]
  refine ⟨hix.valid.grow ht, hix.location_eq, fun l => ?_, hix.seen_eq, fun A => ?_, fun A => ?_⟩
  · rw [hlane, hix.entries_eq]
  · rw [hlane, hwaits]
    exact hix.waiting A
  · rw [hlane]
    exact hix.transitionAt A

theorem mem_seen_iff (hix : set.Indexes t h) (ht : t.rules.Nodup) (hr : t.rules[e.rule]? = some r)
    (hl : (e.withRule r).lane = .ok l) : e.key ∈ (set.queue l).seen ↔ h.contains e = true := by
  rw [History.contains_iff_lane hix.valid ht hr hl, hix.seen_eq, List.mem_toFinset, List.mem_map, hix.entries_eq]

theorem isIn_eq_false (hl : (e.withRule r).lane = .ok l) {m : Lane} (hm : l ≠ m) : (e.withRule r).isIn m = false := by
  rw [Bool.eq_false_iff, ne_eq, Item.isIn_iff, hl, Except.ok.injEq]
  exact hm

/-- A new prediction comes last among those that wait for its symbol. -/
theorem waiting_noted (hix : set.Indexes t h) (hr : t.rules[e.rule]? = some r) (hl : (e.withRule r).lane = .ok l)
    (A : NonTerminal) : EntriesAt ((set.noted l r e).queue .predictions).entries ((set.noted l r e).waiting A)
      ((History.lane t { h with states := h.states ++ [e] } .predictions).filter (t.waits A)) := by
  have hwaits : t.waits A e = decide (r.postDot? = some (.nonTerminal A)) := by
    rw [RuleTable.waits, RuleTable.state?_eq_some_iff.2 ⟨r, hr, rfl⟩]
    rfl
  rw [History.lane_insert hr]
  by_cases hpredictions : l = .predictions
  · subst hpredictions
    have hentries : ((set.noted .predictions r e).queue .predictions).entries =
        (set.queue .predictions).entries ++ [e] := by
      simp [IndexedSet.noted, IndexedQueue.push]
    rw [hentries, if_pos (Item.isIn_iff.2 hl), List.filter_append, List.filter_singleton, hwaits]
    by_cases hdot : r.postDot? = some (.nonTerminal A)
    · simpa [IndexedSet.noted, count, hdot] using (hix.waiting A).snoc e
    · simpa [IndexedSet.noted, hdot] using (hix.waiting A).append [e]
  · rw [isIn_eq_false hl hpredictions]
    simpa [IndexedSet.noted, hpredictions, Ne.symm hpredictions] using hix.waiting A

/-- A new memoized path is the first one for its non-terminal if there was none. -/
theorem transitionAt_noted (hix : set.Indexes t h) (hr : t.rules[e.rule]? = some r) (hl : (e.withRule r).lane = .ok l)
    (A : NonTerminal) :
    EntriesAt ((set.noted l r e).queue .transitions).entries ((set.noted l r e).transitionAt A).toList
      ((History.lane t { h with states := h.states ++ [e] } .transitions).find? (·.kind = .transitive A)).toList := by
  have hold := hix.transitionAt A
  rw [History.lane_insert hr]
  by_cases htransitions : l = .transitions
  · subst htransitions
    have hentries : ((set.noted .transitions r e).queue .transitions).entries =
        (set.queue .transitions).entries ++ [e] := by
      simp [IndexedSet.noted, IndexedQueue.push]
    rw [hentries, if_pos (Item.isIn_iff.2 hl), List.find?_append]
    cases hfirst : (h.lane t .transitions).find? (·.kind = .transitive A) with
    | none =>
      rw [hfirst] at hold
      have hnone : set.transitionAt A = none := Option.toList_eq_nil_iff.1 (List.length_eq_zero_iff.1 hold.length_eq)
      rw [hnone] at hold
      by_cases hkind : e.kind = .transitive A
      · simpa [IndexedSet.noted, count, hnone, hkind] using hold.snoc e
      · simpa [IndexedSet.noted, hnone, hkind] using hold.append [e]
    | some a =>
      rw [hfirst] at hold
      cases hat : set.transitionAt A with
      | none =>
        rw [hat] at hold
        cases hold.length_eq
      | some n =>
        rw [hat] at hold
        simpa [IndexedSet.noted, hat] using hold.append [e]
  · rw [isIn_eq_false hl htransitions]
    simpa [IndexedSet.noted, htransitions, Ne.symm htransitions] using hold

theorem noted (hix : set.Indexes t h) (hr : t.rules[e.rule]? = some r) (hl : (e.withRule r).lane = .ok l)
    (hnew : h.contains e = false) : (set.noted l r e).Indexes t { h with states := h.states ++ [e] } := by
  refine ⟨hix.valid.insert hr hl hnew, hix.location_eq, fun m => ?_, fun m => ?_, hix.waiting_noted hr hl,
    hix.transitionAt_noted hr hl⟩
  · rw [History.lane_insert hr]
    by_cases hm : l = m
    · subst hm
      simp [IndexedSet.noted, IndexedQueue.push, hix.entries_eq, Item.isIn_iff.2 hl]
    · simp [IndexedSet.noted, Ne.symm hm, hix.entries_eq, isIn_eq_false hl hm]
  · by_cases hm : l = m
    · subst hm
      ext key
      simp only [IndexedSet.noted, Function.update_self, IndexedQueue.push, hix.seen_eq, Finset.mem_insert,
        List.mem_toFinset, List.map_append, List.map_singleton, List.mem_append, List.mem_singleton]
      exact or_comm
    · simp [IndexedSet.noted, Ne.symm hm, hix.seen_eq]

end IndexedSet.Indexes

theorem IndexedSet.simulates : Simulates fun t (h : History) (set : IndexedSet) => set.Indexes t h where
  fresh := Indexes.fresh
  grow := Indexes.grow
  insert {t h set r e} ht hr hix := by
    show InStep _ (h.insert r e) (set.insert r e)
    unfold History.insert
    cases hplace : e.misplaced r with
    | true =>
      rw [insert, hplace]
      exact .error _
    | false =>
      obtain ⟨l, hl⟩ := StoredState.exists_lane hplace
      have hseen := hix.mem_seen_iff ht hr hl
      rw [insert_eq hl]
      cases hnew : h.contains e with
      | true =>
        rw [if_pos (hseen.2 hnew)]
        exact .ok ⟨rfl, hix⟩
      | false =>
        have hunseen : e.key ∉ (set.queue l).seen := by
          rw [hseen, hnew]
          exact Bool.false_ne_true
        rw [if_neg hunseen]
        exact .ok ⟨rfl, hix.noted hr hl hnew⟩

/-! ## Looking up -/

namespace IndexedSet.Indexes

variable {t : RuleTable} {h : History} {set : IndexedSet}

theorem waitingFor_eq (hix : set.Indexes t h) (A : NonTerminal) (i : Nat) :
    set.waitingFor A i = .ok ((h.lane t .predictions).filter (t.waits A))[i]? := by
  have hat := hix.waiting A
  unfold waitingFor
  cases hn : (set.waiting A)[i]? with
  | none =>
    have hlength : ((h.lane t .predictions).filter (t.waits A)).length ≤ i := by
      rw [← hat.length_eq]
      exact List.getElem?_eq_none_iff.1 hn
    rw [List.getElem?_eq_none_iff.2 hlength]
  | some n =>
    obtain ⟨a, ha, hfetch⟩ := hat.fetch_eq hn
    rw [ha]
    simp only [hfetch]
    rfl

theorem waitingCount_eq (hix : set.Indexes t h) (A : NonTerminal) :
    set.waitingCount A = ((h.lane t .predictions).filter (t.waits A)).length :=
  (hix.waiting A).length_eq

theorem uniqueWaiting_eq (hix : set.Indexes t h) (A : NonTerminal) :
    set.uniqueWaiting A =
      .ok (if set.waitingCount A = 1 then ((h.lane t .predictions).filter (t.waits A)).head? else none) := by
  have hat := hix.waiting A
  unfold uniqueWaiting waitingCount
  split
  · rename_i n hn
    obtain ⟨a, ha, hfetch⟩ := hat.fetch_eq (i := 0) (n := n) (by rw [hn]; rfl)
    rw [hn, List.head?_eq_getElem?, ha]
    simp only [hfetch]
    rfl
  · rename_i hmany
    rw [if_neg fun hone => ?_]
    obtain ⟨n, hn⟩ := List.length_eq_one_iff.1 hone
    exact hmany n hn

theorem findTransition_eq (hix : set.Indexes t h) (A : NonTerminal) :
    set.findTransition A = .ok ((h.lane t .transitions).find? (·.kind = .transitive A)) := by
  have hat := hix.transitionAt A
  unfold findTransition
  cases hn : set.transitionAt A with
  | none =>
    rw [hn] at hat
    have hnone := Option.toList_eq_nil_iff.1 (List.length_eq_zero_iff.1 hat.length_eq.symm)
    rw [hnone]
  | some n =>
    rw [hn] at hat
    obtain ⟨a, ha, hfetch⟩ := hat.fetch_eq (i := 0) (n := n) rfl
    rw [← List.head?_eq_getElem?, Option.head?_toList] at ha
    rw [ha]
    simp only [hfetch]
    rfl

end IndexedSet.Indexes

end ChartParser
