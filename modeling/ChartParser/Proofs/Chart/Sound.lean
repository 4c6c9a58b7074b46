import ChartParser.Proofs.Chart.Insertion
import ChartParser.Proofs.Deduction.Basic
/-!
# Charts of deducible items

A chart is sound for an input when every item in it is deducible and every
memoized path leads where it would lead without memo. Both last while the set at
one location grows and earlier sets only gain memoized paths, which is all that
a parser does between two tokens.
-/
namespace ChartParser

namespace Chart

/-- The normal state with this rule and origin is in the set at `j`. -/
def Holds (c : Chart ItemSet) (j : Nat) (r : DottedRule) (i : Nat) : Prop :=
  ∃ set, c.get? j = some set ∧ ∃ s ∈ set.states, s.toItem = ⟨r, i, .normal⟩

theorem holds_iff {c : Chart ItemSet} {j i : Nat} {r : DottedRule} :
    c.Holds j r i ↔ ∃ l, ∃ s ∈ c.lane j l, s.toItem = ⟨r, i, .normal⟩ := by
  constructor
  · rintro ⟨set, hset, s, hs, hi⟩
    obtain ⟨l, hl⟩ := (mem_states_iff (get_eq_ok_iff.2 hset)).1 hs
    exact ⟨l, s, hl, hi⟩
  · rintro ⟨l, s, hl, hi⟩
    have hj : j < c.size := Nat.lt_of_not_le fun hj => by simp [lane_eq_nil hj] at hl
    obtain ⟨set, hset, hget, -⟩ := exists_set hj
    exact ⟨set, hset, s, (mem_states_iff hget).2 ⟨l, hl⟩, hi⟩

/-- The rule and origin are those of a state in this lane of the set at `j`. -/
def InLane (c : Chart ItemSet) (j : Nat) (l : Lane) (r : DottedRule) (i : Nat) : Prop :=
  ∃ s ∈ c.lane j l, s.rule = r ∧ s.origin = i

theorem Holds.lt_size {c : Chart ItemSet} {j i : Nat} {r : DottedRule} (h : c.Holds j r i) : j < c.size := by
  obtain ⟨_, h, -⟩ := h
  exact (List.getElem?_eq_some_iff.1 h).1

/-- The states at `k` that wait for `A`, in order of insertion. -/
def waiting (c : Chart ItemSet) (k : Nat) (A : NonTerminal) : List State :=
  (c.lane k .predictions).filter (·.waitsFor A)

theorem waiting_eq {c : Chart ItemSet} {k : Nat} {set : ItemSet} (h : c.get? k = some set) (A : NonTerminal) :
    c.waiting k A = set.waiting A := by
  simp only [waiting, lane, h]
  rfl

theorem mem_waiting {c : Chart ItemSet} {k : Nat} {A : NonTerminal} {s : State} :
    s ∈ c.waiting k A ↔ s ∈ c.lane k .predictions ∧ s.rule.postDot? = some (.nonTerminal A) := by
  simp [waiting, State.waitsFor]

/-! ## The top of a path -/

/-- The rule and origin at the top of the path that begins with the completion of
`A` in set `k`, found without memo. -/
def top? (c : Chart ItemSet) (start A : NonTerminal) (k : Nat) : Option (DottedRule × Nat) :=
  match (c.get? k).bind (·.soleWaiting? A) with
  | none => none
  | some s =>
    match s.rule.advance? with
    | none => none
    | some rule =>
      if rule.isComplete then
        let above :=
          if _h : s.origin < k ∧ ¬(s.origin = 0 ∧ rule.lhs = start) then c.top? start rule.lhs s.origin else none
        some (above.getD (rule, s.origin))
      else none
termination_by k

theorem soleWaiting?_eq_some_iff {c : Chart ItemSet} {k : Nat} {A : NonTerminal} {s : State} :
    (c.get? k).bind (·.soleWaiting? A) = some s ↔ c.waiting k A = [s] := by
  cases h : c.get? k with
  | none => simp [waiting, lane, h]
  | some set =>
    rw [Option.bind_some, waiting_eq h, ItemSet.soleWaiting?]
    split <;> simp_all

/-- A path begins with the only waiting state, if that becomes complete, and goes
on from there unless the state begins in the same set or is the start rule. -/
theorem top?_eq_some_iff {c : Chart ItemSet} {start A : NonTerminal} {k : Nat} {t : DottedRule × Nat} :
    c.top? start A k = some t ↔ ∃ s rule, c.waiting k A = [s] ∧ s.rule.advance? = some rule ∧
      rule.isComplete = true ∧ t = (if s.origin < k ∧ ¬(s.origin = 0 ∧ rule.lhs = start) then
        c.top? start rule.lhs s.origin else none).getD (rule, s.origin) := by
  rw [top?]
  cases hs : (c.get? k).bind (·.soleWaiting? A) with
  | none =>
    have : ∀ s, c.waiting k A ≠ [s] := by simp [← soleWaiting?_eq_some_iff, hs]
    simp [this]
  | some s =>
    rw [soleWaiting?_eq_some_iff] at hs
    cases hr : s.rule.advance? with
    | none => simp [hs, hr]
    | some rule =>
      by_cases hc : rule.isComplete = true
      · simp [hs, hr, hc]
        exact eq_comm
      · simp [hs, hr, hc]

theorem isComplete_of_top? {c : Chart ItemSet} {start A : NonTerminal} {k : Nat} {t : DottedRule × Nat}
    (h : c.top? start A k = some t) : t.1.isComplete = true := by
  induction k using Nat.strongRecOn generalizing A t with
  | _ k ih =>
    obtain ⟨s, rule, -, -, hc, rfl⟩ := top?_eq_some_iff.1 h
    split
    · rename_i hcl
      cases ht : c.top? start rule.lhs s.origin with
      | none => exact hc
      | some t => exact ih s.origin hcl.1 ht
    · exact hc

/-- The rule at the top has moved over what was completed. -/
theorem position_pos_of_top? {c : Chart ItemSet} {start A : NonTerminal} {k : Nat} {t : DottedRule × Nat}
    (h : c.top? start A k = some t) : 0 < t.1.position := by
  induction k using Nat.strongRecOn generalizing A t with
  | _ k ih =>
    obtain ⟨s, rule, -, hr, -, rfl⟩ := top?_eq_some_iff.1 h
    have hpos : 0 < rule.position := by
      rw [(DottedRule.advance?_some hr).2.2.1]
      exact Nat.succ_pos _
    split
    · rename_i hcl
      cases ht : c.top? start rule.lhs s.origin with
      | none => exact hpos
      | some t => exact ih s.origin hcl.1 ht
    · exact hpos

theorem top?_congr {c c' : Chart ItemSet} {start : NonTerminal} {k : Nat}
    (h : ∀ k' ≤ k, ∀ A, c'.waiting k' A = c.waiting k' A) (A : NonTerminal) :
    c'.top? start A k = c.top? start A k := by
  induction k using Nat.strongRecOn generalizing A with
  | _ k ih =>
    ext t
    simp only [top?_eq_some_iff, h k (Nat.le_refl k)]
    refine exists_congr fun s => exists_congr fun rule => ?_
    by_cases hk : s.origin < k
    · rw [ih s.origin hk (fun k' hk' => h k' (by omega))]
    · simp [hk]

/-! ## Growth -/

/-- Between `c` and `c'` the set at `j` has grown, and every other one has gained
memoized paths at most. -/
structure Grows (j : Nat) (c c' : Chart ItemSet) : Prop where
  size_le : c.size ≤ c'.size
  le_size : c'.size ≤ max c.size (j + 1)
  lane_eq : ∀ k l, k ≠ j → l ≠ .transitions → c'.lane k l = c.lane k l
  lane_le : ∀ k l, c.lane k l <+: c'.lane k l

namespace Grows

variable {c c' c'' : Chart ItemSet} {j k i : Nat}

theorem refl (j : Nat) (c : Chart ItemSet) : Grows j c c :=
  ⟨Nat.le_refl _, by omega, fun _ _ _ _ => rfl, fun _ _ => List.prefix_refl _⟩

theorem trans (h : Grows j c c') (h' : Grows j c' c'') : Grows j c c'' := by
  have := h.le_size
  have := h'.le_size
  refine ⟨Nat.le_trans h.size_le h'.size_le, by omega, fun k l hk hl => ?_, fun k l => ?_⟩
  · rw [h'.lane_eq k l hk hl, h.lane_eq k l hk hl]
  · exact (h.lane_le k l).trans (h'.lane_le k l)

theorem holds {r : DottedRule} (h : Grows j c c') (hr : c.Holds k r i) : c'.Holds k r i := by
  obtain ⟨l, s, hs, hi⟩ := holds_iff.1 hr
  exact holds_iff.2 ⟨l, s, (h.lane_le k l).subset hs, hi⟩

theorem waiting_eq (h : Grows j c c') (hk : k < j) (A : NonTerminal) : c'.waiting k A = c.waiting k A := by
  rw [waiting, h.lane_eq k .predictions (by omega) (by simp), waiting]

theorem top?_eq (h : Grows j c c') (hk : k < j) (start A : NonTerminal) :
    c'.top? start A k = c.top? start A k :=
  top?_congr (fun _ hk' _ => h.waiting_eq (by omega) _) A

end Grows

/-! ## Insertions -/

namespace Inserted

variable {c c' : Chart ItemSet} {j k : Nat} {l m : Lane} {s a : State} {new : Bool}

theorem grows (h : c.Inserted k l s new c') (hk : k ≤ j) (hj : j ≤ c.size) (hl : k = j ∨ l = .transitions) :
    c.Grows j c' := by
  have hsize := h.size_eq
  refine ⟨by omega, by omega, fun k' m hk' hm => ?_, fun k' m => ?_⟩
  · rw [h.lane_eq, if_neg]
    rintro ⟨rfl, rfl, -⟩
    rcases hl with hl | hl
    · exact hk' hl
    · exact hm hl
  · rw [h.lane_eq]
    split
    · exact List.prefix_append _ _
    · exact List.prefix_refl _

theorem mem (h : c.Inserted j l s new c') (ha : a ∈ c'.lane k m) : a ∈ c.lane k m ∨ (k = j ∧ m = l ∧ a = s) := by
  rw [h.lane_eq] at ha
  split at ha
  · rename_i hkm
    rcases List.mem_append.1 ha with ha | ha
    · exact .inl ha
    · exact .inr ⟨hkm.1, hkm.2.1, by simpa using ha⟩
  · exact .inl ha

/-- Whether it was new or not, the state's item is there afterwards. -/
theorem exists_mem (h : c.Inserted j l s new c') : ∃ a ∈ c'.lane j l, a.toItem = s.toItem := by
  rw [h.lane_eq]
  cases hn : new with
  | true => exact ⟨s, by simp, rfl⟩
  | false =>
    have := mt h.new_iff.2 (by simp [hn])
    simpa using this

theorem nodup (h : c.Inserted j l s new c') (hc : ∀ k m, ((c.lane k m).map State.toItem).Nodup) (k : Nat)
    (m : Lane) : ((c'.lane k m).map State.toItem).Nodup := by
  rw [h.lane_eq]
  split
  · rename_i hkm
    obtain ⟨rfl, rfl, hnew⟩ := hkm
    rw [List.map_append, List.nodup_append]
    refine ⟨hc _ _, by simp, fun i hi i' hi' => ?_⟩
    obtain ⟨a, ha, rfl⟩ := List.mem_map.1 hi
    obtain rfl : i' = s.toItem := by simpa using hi'
    exact h.new_iff.1 hnew a ha
  · exact hc k m

end Inserted

end Chart

/-! ## Soundness -/

/-- Every state of the chart stands in the lane it belongs to, once, and is
deducible; every memoized path belongs to a set before `j`, where the chart may
still grow, and leads to the top. -/
structure Sound (g : Grammar) (input : List (List Token)) (j : Nat) (c : Chart ItemSet) : Prop where
  le_size : j ≤ c.size
  lane_ok : ∀ {k l s}, s ∈ c.lane k l → s.lane = .ok l
  nodup : ∀ k l, ((c.lane k l).map State.toItem).Nodup
  deducible : ∀ {k l s}, s ∈ c.lane k l → s.kind = .normal → Deducible g input s.rule s.origin k
  memo : ∀ {k s A}, s ∈ c.lane k .transitions → s.kind = .transitive A →
    k < j ∧ c.top? g.start A k = some (s.rule, s.origin)

namespace Sound

variable {g : Grammar} {input : List (List Token)} {j k i : Nat} {c c' : Chart ItemSet} {r : DottedRule}

/-- The lane of an item tells where to find it. -/
theorem exists_mem_lane (h : Sound g input j c) (hr : c.Holds k r i) {l : Lane}
    (hl : Item.lane ⟨r, i, .normal⟩ = .ok l) : ∃ s ∈ c.lane k l, s.toItem = ⟨r, i, .normal⟩ := by
  obtain ⟨m, s, hs, hi⟩ := Chart.holds_iff.1 hr
  have hm := h.lane_ok hs
  rw [hi, hl, Except.ok.injEq] at hm
  subst hm
  exact ⟨s, hs, hi⟩

theorem mem_lane (h : Sound g input j c) (hr : c.Holds k r i) {l : Lane} (hl : Item.lane ⟨r, i, .normal⟩ = .ok l) :
    c.InLane k l r i := by
  obtain ⟨s, hs, hi⟩ := h.exists_mem_lane hr hl
  exact ⟨s, hs, by rw [hi], by rw [hi]⟩

theorem holds (h : Sound g input j c) {s : State} {l : Lane} (hs : s ∈ c.lane k l) (hl : l ≠ .transitions) :
    c.Holds k s.rule s.origin :=
  Chart.holds_iff.2 ⟨l, s, hs, by rw [← Item.kind_of_lane (h.lane_ok hs) hl]⟩

theorem inLane_iff (h : Sound g input j c) {l : Lane} (hl : l ≠ .transitions) :
    c.InLane k l r i ↔ c.Holds k r i ∧ Item.lane ⟨r, i, .normal⟩ = .ok l := by
  constructor
  · rintro ⟨s, hs, rfl, rfl⟩
    refine ⟨h.holds hs hl, ?_⟩
    rw [← Item.kind_of_lane (h.lane_ok hs) hl]
    exact h.lane_ok hs
  · rintro ⟨hh, hlane⟩
    exact h.mem_lane hh hlane

theorem deducible_of_holds (h : Sound g input j c) (hr : c.Holds k r i) : Deducible g input r i k := by
  obtain ⟨l, s, hs, hi⟩ := Chart.holds_iff.1 hr
  have := h.deducible hs (by rw [hi])
  rwa [hi] at this

theorem hasRule_of_waiting (h : Sound g input j c) {s : State} {A : NonTerminal} (hs : s ∈ c.waiting k A) :
    g.HasRule s.rule :=
  (h.deducible_of_holds (h.holds (Chart.mem_waiting.1 hs).1 (by simp))).hasRule

theorem origin_le_of_waiting (h : Sound g input j c) {s : State} {A : NonTerminal} (hs : s ∈ c.waiting k A) :
    s.origin ≤ k :=
  (h.deducible_of_holds (h.holds (Chart.mem_waiting.1 hs).1 (by simp))).origin_le

/-- A path leads back. -/
theorem top?_origin_le (h : Sound g input j c) {A : NonTerminal} {t : DottedRule × Nat}
    (ht : c.top? g.start A k = some t) : t.2 ≤ k := by
  induction k using Nat.strongRecOn generalizing A t with
  | _ k ih =>
    obtain ⟨s, rule, hs, -, -, rfl⟩ := Chart.top?_eq_some_iff.1 ht
    have hle : s.origin ≤ k := h.origin_le_of_waiting (A := A) (by simp [hs])
    split
    · rename_i hcl
      cases htop : c.top? g.start rule.lhs s.origin with
      | none => exact hle
      | some t => exact Nat.le_trans (ih s.origin hcl.1 htop) hle
    · exact hle

/-- No state of a set begins after it. -/
theorem origin_le (h : Sound g input j c) {l : Lane} {s : State} (hs : s ∈ c.lane k l) : s.origin ≤ k := by
  by_cases hl : l = .transitions
  · subst hl
    obtain ⟨⟨A, hkind⟩, -⟩ := Item.lane_eq_transitions_iff.1 (h.lane_ok hs)
    exact h.top?_origin_le (h.memo hs hkind).2
  · exact (h.deducible_of_holds (h.holds hs hl)).origin_le

/-- A waiting state and the completion of what it waits for move its dot. -/
theorem deducible_advance (h : Sound g input j c) {s : State} {A : NonTerminal} (hs : s ∈ c.waiting k A)
    {d : DottedRule} {m : Nat} (hd : Deducible g input d k m) (hc : d.isComplete = true) (hA : d.lhs = A)
    (hr : s.rule.advance? = some r) : Deducible g input r s.origin m := by
  subst hA
  obtain ⟨hs, hw⟩ := Chart.mem_waiting.1 hs
  have hk := (Item.lane_eq_predictions_iff.1 (h.lane_ok hs)).1
  exact .complete (h.deducible hs hk) hw hd hc hr

/-- The top of a path is deducible wherever the path begins. -/
theorem deducible_top (h : Sound g input j c) {A : NonTerminal} {t : DottedRule × Nat} {d : DottedRule} {m : Nat}
    (ht : c.top? g.start A k = some t) (hd : Deducible g input d k m) (hc : d.isComplete = true)
    (hA : d.lhs = A) : Deducible g input t.1 t.2 m := by
  induction k using Nat.strongRecOn generalizing A t d with
  | _ k ih =>
    obtain ⟨s, rule, hw, hr, hrc, rfl⟩ := Chart.top?_eq_some_iff.1 ht
    have hs : Deducible g input rule s.origin m := h.deducible_advance (by simp [hw]) hd hc hA hr
    -- The completed rule begins in an earlier set, where the path goes on.
    split
    · rename_i hcl
      cases htop : c.top? g.start rule.lhs s.origin with
      | none => exact hs
      | some t => exact ih s.origin hcl.1 htop hs hrc rfl
    · exact hs

theorem insert_normal (h : Sound g input j c) (hd : Deducible g input r i j) {node : Option ForestNode} {l : Lane}
    {new : Bool} (hl : (State.normal r i node).lane = .ok l) (hins : c.Inserted j l (.normal r i node) new c') :
    Sound g input j c' ∧ c.Grows j c' ∧ c'.Holds j r i := by
  have hg := hins.grows (Nat.le_refl j) h.le_size (.inl rfl)
  refine ⟨⟨Nat.le_trans h.le_size hg.size_le, ?_, hins.nodup h.nodup, ?_, ?_⟩, hg, ?_⟩
  · intro k m a ha
    rcases hins.mem ha with ha | ⟨rfl, rfl, rfl⟩
    · exact h.lane_ok ha
    · exact hl
  · intro k m a ha hk
    rcases hins.mem ha with ha | ⟨rfl, rfl, rfl⟩
    · exact h.deducible ha hk
    · exact hd
  · intro k a A ha hk
    rcases hins.mem ha with ha | ⟨-, -, rfl⟩
    · obtain ⟨hkj, ht⟩ := h.memo ha hk
      exact ⟨hkj, by rw [hg.top?_eq hkj, ht]⟩
    · cases hk
  · obtain ⟨a, ha, hi⟩ := hins.exists_mem
    exact Chart.holds_iff.2 ⟨l, a, ha, hi⟩

theorem insert_transitive (h : Sound g input j c) {A : NonTerminal} (hk : k < j)
    (ht : c.top? g.start A k = some (r, i)) {new : Bool}
    (hl : (State.transitive A r i).lane = .ok .transitions)
    (hins : c.Inserted k .transitions (.transitive A r i) new c') :
    Sound g input j c' ∧ c.Grows j c' ∧ ∃ t ∈ c'.lane k .transitions, t.kind = .transitive A := by
  have hg := hins.grows (by omega) h.le_size (.inr rfl)
  refine ⟨⟨Nat.le_trans h.le_size hg.size_le, ?_, hins.nodup h.nodup, ?_, ?_⟩, hg, ?_⟩
  · intro k m a ha
    rcases hins.mem ha with ha | ⟨rfl, rfl, rfl⟩
    · exact h.lane_ok ha
    · exact hl
  · intro k m a ha hkind
    rcases hins.mem ha with ha | ⟨rfl, rfl, rfl⟩
    · exact h.deducible ha hkind
    · cases hkind
  · intro k' a B ha hkind
    rcases hins.mem ha with ha | ⟨rfl, -, rfl⟩
    · obtain ⟨hkj, ht⟩ := h.memo ha hkind
      exact ⟨hkj, by rw [hg.top?_eq hkj, ht]⟩
    · cases hkind
      exact ⟨hk, by rw [hg.top?_eq hk, ht]; rfl⟩
  · obtain ⟨a, ha, hi⟩ := hins.exists_mem
    exact ⟨a, ha, by rw [hi]; rfl⟩

end Sound

end ChartParser
