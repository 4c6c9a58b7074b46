import ChartParser.Chart
/-!
# What an insertion does to a chart

A chart is seen here as its lanes: the states of one kind at one location, in
order of insertion. An insertion appends to one lane or changes nothing
(`Chart.insert_spec`).
-/
namespace ChartParser

namespace Chart

variable {S : Type}

/-- A change that succeeds replaces the set at its location. -/
theorem update_eq_ok {c : Chart S} {j : Nat} {fresh set set' : S} {new : Bool}
    (change : S → Except Fault (Bool × S)) (hj : j ≤ c.size) (hset : (c.get? j).getD fresh = set)
    (hc : change set = .ok (new, set')) :
    ∃ c', c.update j fresh change = (.ok new, c') ∧ c'.size = max c.size (j + 1) ∧
      ∀ k, c'.get? k = if k = j then some set' else c.get? k := by
  subst hset
  by_cases hlt : j < c.size
  · have hget : c.get j = .ok ((c.get? j).getD fresh) := by
      have : c.sets[j]? = some c.sets[j] := List.getElem?_eq_getElem hlt
      simp [get, fetch, get?, this]
    refine ⟨⟨c.sets.set j set'⟩, ?_, ?_, fun k => ?_⟩
    · simp only [update, reach_of_lt hlt, hget, bind, Except.bind, hc]
    · simp only [size, List.length_set] at hlt ⊢
      omega
    · simp only [get?, List.getElem?_set]
      split <;> simp_all [size, eq_comm]
  · obtain rfl : j = c.size := by omega
    have hnone : c.get? c.size = none := by simp [get?, size]
    have hget : Chart.get ⟨c.sets ++ [fresh]⟩ c.size = .ok fresh := by simp [get, fetch, size]
    rw [hnone, Option.getD_none] at hc
    refine ⟨⟨(c.sets ++ [fresh]).set c.size set'⟩, ?_, ?_, fun k => ?_⟩
    · simp only [update, reach_at_end, hget, bind, Except.bind, hc]
    · simp [size]
    · by_cases hk : k = c.size
      · simp [hk, get?, size]
      · rw [if_neg hk]
        simp only [size] at hk
        simp only [get?, size, List.getElem?_set_ne (Ne.symm hk)]
        grind

/-! ## Lanes -/

/-- The states in a lane of the set at `j`, in order of insertion. -/
def lane (c : Chart ItemSet) (j : Nat) (l : Lane) : List State :=
  match c.get? j with
  | none => []
  | some set => (set.queue l).toList

theorem exists_set {c : Chart ItemSet} {j : Nat} (hj : j < c.size) :
    ∃ set, c.get? j = some set ∧ c.get j = .ok set ∧ ∀ l, (set.queue l).toList = c.lane j l := by
  have hset : c.get? j = some c.sets[j] := List.getElem?_eq_getElem hj
  exact ⟨c.sets[j], hset, fetch_eq_ok_iff.2 hset, fun l => by simp only [lane, hset]⟩

theorem get_eq_ok_iff {c : Chart S} {j : Nat} {set : S} : c.get j = .ok set ↔ c.get? j = some set := fetch_eq_ok_iff

theorem queue_eq_lane {c : Chart ItemSet} {j : Nat} {set : ItemSet} (h : c.get j = .ok set) (l : Lane) :
    (set.queue l).toList = c.lane j l := by
  simp only [lane, get_eq_ok_iff.1 h]

theorem mem_states_iff {c : Chart ItemSet} {j : Nat} {set : ItemSet} (h : c.get j = .ok set) {s : State} :
    s ∈ set.states ↔ ∃ l, s ∈ c.lane j l := by
  simp only [← queue_eq_lane h, ItemSet.states, List.mem_append]
  constructor
  · rintro (((hs | hs) | hs) | hs)
    · exact ⟨.predictions, hs⟩
    · exact ⟨.scans, hs⟩
    · exact ⟨.completions, hs⟩
    · exact ⟨.transitions, hs⟩
  · rintro ⟨l, hs⟩
    cases l with
    | predictions => exact .inl (.inl (.inl hs))
    | scans => exact .inl (.inl (.inr hs))
    | completions => exact .inl (.inr hs)
    | transitions => exact .inr hs

theorem lane_eq_nil {c : Chart ItemSet} {j : Nat} (h : c.size ≤ j) (l : Lane) : c.lane j l = [] := by
  have hnone : c.get? j = none := List.getElem?_eq_none_iff.2 h
  simp only [lane, hnone]

/-- `c'` is `c` with `s` offered to its lane `l` at `j`; `new` says whether it was
taken. -/
structure Inserted (c : Chart ItemSet) (j : Nat) (l : Lane) (s : State) (new : Bool) (c' : Chart ItemSet) : Prop where
  size_eq : c'.size = max c.size (j + 1)
  new_iff : new = true ↔ ∀ a ∈ c.lane j l, a.toItem ≠ s.toItem
  lane_eq : ∀ k m, c'.lane k m = if k = j ∧ m = l ∧ new = true then c.lane k m ++ [s] else c.lane k m

theorem insert_spec {c : Chart ItemSet} {j : Nat} {s : State} {l : Lane} (hl : s.lane = .ok l) (hj : j ≤ c.size) :
    ∃ new c', c.insert j s = (.ok new, c') ∧ c.Inserted j l s new c' := by
  have hlane : ∀ m, (((c.get? j).getD (.empty j)).queue m).toList = c.lane j m := by
    intro m
    unfold lane
    cases c.get? j with
    | none => cases m <;> rfl
    | some set => rfl
  generalize hset : (c.get? j).getD (.empty j) = set at hlane
  have hins : set.insert s = .ok (((set.queue l).insert s).1, set.withQueue l ((set.queue l).insert s).2) := by
    simp only [ItemSet.insert, hl, bind, Except.bind, pure, Except.pure]
  obtain ⟨c', hc', hsize, hget⟩ := update_eq_ok (·.insert s) hj hset hins
  refine ⟨_, c', hc', hsize, ?_, fun k m => ?_⟩
  · rw [Queue.insert_fst, Queue.contains, hlane l, Bool.not_eq_true', ← Bool.not_eq_true,
      List.contains_iff_exists_mem_beq]
    simp only [State.beq_iff, not_exists, not_and]
    exact ⟨fun h a ha e => h a ha e.symm, fun h a ha e => h a ha e.symm⟩
  · have hk : c'.lane k m =
        if k = j then ((set.withQueue l ((set.queue l).insert s).2).queue m).toList else c.lane k m := by
      unfold lane
      rw [hget k]
      by_cases hkj : k = j <;> simp only [hkj, if_true, if_false]
    rw [hk]
    by_cases hkj : k = j
    · subst hkj
      rw [← hlane m]
      by_cases hm : m = l
      · subst hm
        cases h : (set.queue m).contains s
        · simp [Queue.insert_of_not_contains h]
        · simp [Queue.insert_of_contains h]
      · simp [hm]
    · simp [hkj]

/-- An insertion that answers is one into a lane. -/
theorem inserted_of_insert {c c' : Chart ItemSet} {j : Nat} {s : State} {new : Bool} (h : c.insert j s = (.ok new, c')) :
    ∃ l, s.lane = .ok l ∧ c.Inserted j l s new c' := by
  have hinsert := h
  unfold insert update at h
  split at h
  · cases h
  · rename_i c₁ hreach
    split at h
    · cases h
    · rename_i new' set' hset
      obtain ⟨set, -, hins⟩ := bind_eq_ok_iff.1 hset
      obtain ⟨l, hl, -⟩ := ItemSet.queue_of_insert hins
      have hj : j ≤ c.size := by
        refine Nat.le_of_not_lt fun hlt => ?_
        rw [reach_eq_error_iff.2 ⟨hlt, rfl⟩] at hreach
        cases hreach
      obtain ⟨new'', c'', hinsert', hc''⟩ := insert_spec hl hj
      cases hinsert.symm.trans hinsert'
      exact ⟨l, hl, hc''⟩

end Chart

end ChartParser
