import ChartParser.Frame.Run
/-!
# How many entries a chart has

An insertion that is taken adds one entry to the chart, and one that is refused or
fails adds none (`Chart.totalStates_of_insert`, `FrameChart.totalStates_of_insert`).
-/
namespace ChartParser

/-! ## Queues and sets -/

theorem Queue.size_insert {α : Type} [BEq α] (q : Queue α) (a : α) :
    (q.insert a).2.size = q.size + (q.insert a).1.toNat := by
  cases h : q.contains a
  · simp [insert_of_not_contains h, size]
  · simp [insert_of_contains h]

theorem ItemSet.size_withQueue (set : ItemSet) (l : Lane) (q : Queue State) :
    (set.withQueue l q).size + (set.queue l).size = set.size + q.size := by
  cases l <;> simp only [size, withQueue, queue] <;> omega

theorem ItemSet.size_of_insert {set set' : ItemSet} {s : State} {new : Bool} (h : set.insert s = .ok (new, set')) :
    set'.size = set.size + new.toNat := by
  obtain ⟨lane, -, h⟩ := bind_eq_ok_iff.1 h
  simp only [pure, Except.pure, Except.ok.injEq, Prod.mk.injEq] at h
  obtain ⟨rfl, rfl⟩ := h
  have hset := set.size_withQueue lane ((set.queue lane).insert s).2
  have hqueue := (set.queue lane).size_insert s
  omega

/-! ## Charts -/

namespace Chart

variable {S : Type} {c c' : Chart S} {k : Nat} {fresh : S} {change : S → Except Fault (Bool × S)} {size : S → Nat}

theorem total_append (sets more : List S) (size : S → Nat) :
    total ⟨sets ++ more⟩ size = total ⟨sets⟩ size + total ⟨more⟩ size := by
  induction sets with
  | nil => simp [total]
  | cons set sets ih =>
    simp only [total, List.cons_append, List.foldr_cons] at ih ⊢
    omega

theorem total_set {set : S} (h : c.get? k = some set) (set' : S) :
    total ⟨c.sets.set k set'⟩ size + size set = c.total size + size set' := by
  obtain ⟨sets⟩ := c
  induction sets generalizing k with
  | nil => cases h
  | cons first sets ih =>
    cases k with
    | zero =>
      obtain rfl : first = set := Option.some.inj h
      simp only [total, List.set_cons_zero, List.foldr_cons]
      omega
    | succ k =>
      have hrest := ih (k := k) h
      simp only [total, List.set_cons_succ, List.foldr_cons] at hrest ⊢
      omega

/-- A set that is added is empty. -/
theorem total_of_reach (hfresh : size fresh = 0) (h : c.reach k fresh = .ok c') : c'.total size = c.total size := by
  unfold reach at h
  split at h
  · cases h
    rfl
  · split at h
    · cases h
      rw [total_append]
      simp [total, hfresh]
    · cases h

theorem total_of_update {new : Bool} (hfresh : size fresh = 0)
    (hchange : ∀ {set set' new}, change set = .ok (new, set') → size set' = size set + new.toNat)
    (h : c.update k fresh change = (.ok new, c')) : c'.total size = c.total size + new.toNat := by
  unfold update at h
  split at h
  · cases h
  · rename_i c₁ hreach
    split at h
    · cases h
    · rename_i new set' hset
      cases h
      obtain ⟨set, hget, hset⟩ := bind_eq_ok_iff.1 hset
      have htotal : total ⟨c₁.sets.set k set'⟩ size + size set = c₁.total size + size set' :=
        total_set (fetch_eq_ok_iff.1 hget) set'
      have hsize := hchange hset
      rw [← total_of_reach hfresh hreach]
      omega

theorem total_of_update_error {e : Fault} (hfresh : size fresh = 0) (h : c.update k fresh change = (.error e, c')) :
    c'.total size = c.total size := by
  unfold update at h
  split at h
  · cases h
    rfl
  · rename_i c₁ hreach
    split at h
    · cases h
      exact total_of_reach hfresh hreach
    · cases h

theorem totalStates_of_insert {c c' : Chart ItemSet} {s : State} {new : Bool} (h : c.insert k s = (.ok new, c')) :
    c'.totalStates = c.totalStates + new.toNat :=
  total_of_update rfl ItemSet.size_of_insert h

end Chart

theorem FrameChart.totalStates_of_insert {c c' : FrameChart} {k : Nat} {x : FrameItem} {new : Bool}
    (h : insert c k x = (.ok new, c')) : totalStates c' = totalStates c + new.toNat := by
  refine Chart.total_of_update rfl (fun {q q' new} hq => ?_) h
  rw [Except.ok.injEq] at hq
  have hsize := q.size_insert x
  rwa [hq] at hsize

end ChartParser
