import ChartParser.Proofs.Chart.Size
/-!
# Charts built from their entries

`Chart.Builds` says of a chart that certain entries, inserted one after the other into a
chart without sets, are all new and make it up. Any insertion that is taken goes on
with this (`Chart.Builds.snoc`), and one that is refused changes nothing
(`Chart.insert_of_refused`, `FrameChart.insert_of_refused`).
-/
namespace ChartParser

namespace Chart

variable {S T β γ : Type} {insert : Chart S → Nat → β → Except Fault Bool × Chart S}

/-- Inserts the entries one after the other; says which were new. -/
def replay (insert : Chart S → Nat → β → Except Fault Bool × Chart S) (c : Chart S) :
    List (Nat × β) → Except Fault (List Bool × Chart S)
  | [] => return ([], c)
  | (k, b) :: rest =>
    match insert c k b with
    | (.error e, _) => throw e
    | (.ok new, c) => do
      let (news, c) ← replay insert c rest
      return (new :: news, c)

/-- The entries, all of them new when their turn comes, make up the chart. -/
def Builds (insert : Chart S → Nat → β → Except Fault Bool × Chart S) (entries : List (Nat × β)) (c : Chart S) : Prop :=
  replay insert .empty entries = .ok (List.replicate entries.length true, c)

theorem replay_append {c c' c'' : Chart S} {entries more : List (Nat × β)} {news news' : List Bool}
    (h : replay insert c entries = .ok (news, c')) (h' : replay insert c' more = .ok (news', c'')) :
    replay insert c (entries ++ more) = .ok (news ++ news', c'') := by
  induction entries generalizing c news with
  | nil =>
    cases h
    exact h'
  | cons entry entries ih =>
    rw [replay] at h
    rw [List.cons_append, replay]
    split at h
    · cases h
    · obtain ⟨⟨news₁, c₁⟩, hrest, h⟩ := bind_eq_ok_iff.1 h
      cases h
      rw [ih hrest]
      rfl

theorem Builds.empty : Builds insert [] .empty := rfl

theorem Builds.snoc {entries : List (Nat × β)} {c c' : Chart S} {k : Nat} {b : β} (h : Builds insert entries c)
    (hins : insert c k b = (.ok true, c')) : Builds insert (entries ++ [(k, b)]) c' := by
  have hlast : replay insert c [(k, b)] = .ok ([true], c') := by
    simp only [replay, hins]
    rfl
  rw [Builds, replay_append h hlast, List.length_append, List.length_singleton, List.replicate_succ']

theorem replay_map {insert' : Chart T → Nat → γ → Except Fault Bool × Chart T} {f : β → γ} {F : Chart S → Chart T}
    (hinsert : ∀ c k b, insert' (F c) k (f b) = ((insert c k b).1, F (insert c k b).2))
    {entries : List (Nat × β)} {c c' : Chart S} {news : List Bool} (h : replay insert c entries = .ok (news, c')) :
    replay insert' (F c) (entries.map fun e => (e.1, f e.2)) = .ok (news, F c') := by
  induction entries generalizing c news with
  | nil =>
    cases h
    rfl
  | cons entry entries ih =>
    rw [replay] at h
    rw [List.map_cons, replay, hinsert]
    generalize insert c entry.1 entry.2 = x at h
    obtain ⟨new | new, c₁⟩ := x
    · cases h
    · obtain ⟨⟨news₁, c₂⟩, hrest, h⟩ := bind_eq_ok_iff.1 h
      cases h
      dsimp only
      rw [ih hrest]
      rfl

/-- Insertions that answer alike build charts that correspond. -/
theorem Builds.map {insert' : Chart T → Nat → γ → Except Fault Bool × Chart T} {f : β → γ} {F : Chart S → Chart T}
    (hempty : F .empty = .empty) (hinsert : ∀ c k b, insert' (F c) k (f b) = ((insert c k b).1, F (insert c k b).2))
    {entries : List (Nat × β)} {c : Chart S} (h : Builds insert entries c) :
    Builds insert' (entries.map fun e => (e.1, f e.2)) (F c) := by
  rw [Builds, ← hempty, replay_map hinsert h, List.length_map]

theorem total_of_replay {size : S → Nat}
    (hsize : ∀ {c c' k b}, insert c k b = (.ok true, c') → c'.total size = c.total size + 1)
    {entries : List (Nat × β)} {c c' : Chart S}
    (h : replay insert c entries = .ok (List.replicate entries.length true, c')) :
    c'.total size = c.total size + entries.length := by
  induction entries generalizing c with
  | nil =>
    cases h
    rfl
  | cons entry entries ih =>
    rw [replay] at h
    split at h
    · cases h
    · rename_i new c₁ hins
      obtain ⟨⟨news, c₂⟩, hrest, h⟩ := bind_eq_ok_iff.1 h
      rw [List.length_cons, List.replicate_succ] at h
      cases h
      rw [ih hrest, hsize hins, List.length_cons]
      omega

/-- A chart has as many entries as have built it. -/
theorem Builds.total_eq {size : S → Nat}
    (hsize : ∀ {c c' k b}, insert c k b = (.ok true, c') → c'.total size = c.total size + 1)
    {entries : List (Nat × β)} {c : Chart S} (h : Builds insert entries c) : c.total size = entries.length :=
  (total_of_replay hsize h).trans (Nat.zero_add _)

/-- If an insertion keeps what is there, then so do all. -/
theorem replay_keeps {P : Chart S → Prop} (hkeep : ∀ {c c' k b new}, insert c k b = (.ok new, c') → P c → P c')
    {entries : List (Nat × β)} {c c' : Chart S} {news : List Bool} (h : replay insert c entries = .ok (news, c'))
    (hc : P c) : P c' := by
  induction entries generalizing c news with
  | nil =>
    cases h
    exact hc
  | cons entry entries ih =>
    rw [replay] at h
    split at h
    · cases h
    · rename_i new c₁ hins
      obtain ⟨⟨news₁, c₂⟩, hrest, h⟩ := bind_eq_ok_iff.1 h
      cases h
      exact ih hrest (hkeep hins hc)

/-- The entries that have built a chart are in it. -/
theorem Builds.mem {P : Nat → β → Chart S → Prop} (hnew : ∀ {c c' k b}, insert c k b = (.ok true, c') → P k b c')
    (hkeep : ∀ {c c' k b new k' b'}, insert c k b = (.ok new, c') → P k' b' c → P k' b' c')
    {entries : List (Nat × β)} {c : Chart S} (h : Builds insert entries c) : ∀ e ∈ entries, P e.1 e.2 c := by
  rw [Builds] at h
  generalize Chart.empty = c₀ at h
  induction entries generalizing c₀ with
  | nil => simp
  | cons entry entries ih =>
    rw [replay] at h
    split at h
    · cases h
    · rename_i new c₁ hins
      obtain ⟨⟨news₁, c₂⟩, hrest, h⟩ := bind_eq_ok_iff.1 h
      rw [List.length_cons, List.replicate_succ] at h
      cases h
      rw [List.forall_mem_cons]
      exact ⟨replay_keeps (P := P entry.1 entry.2) hkeep hrest (hnew hins), ih c₁ hrest⟩

/-! ## Refused entries -/

/-- If a set changes only with an entry that is new, and a fresh set refuses nothing, a
refused entry changes nothing. -/
theorem update_of_refused {c c' : Chart S} {k : Nat} {fresh : S} {change : S → Except Fault (Bool × S)}
    (hfresh : ∀ set, change fresh ≠ .ok (false, set))
    (hchange : ∀ {set set'}, change set = .ok (false, set') → set' = set)
    (h : c.update k fresh change = (.ok false, c')) : c' = c := by
  unfold update at h
  split at h
  · cases h
  · rename_i c₁ hreach
    split at h
    · cases h
    · rename_i new set' hset
      cases h
      obtain ⟨set, hget, hset⟩ := bind_eq_ok_iff.1 hset
      obtain rfl := hchange hset
      obtain ⟨hk, rfl⟩ := List.getElem?_eq_some_iff.1 (fetch_eq_ok_iff.1 hget)
      rw [List.set_getElem_self]
      unfold reach at hreach
      split at hreach
      · cases hreach
        rfl
      · split at hreach
        · rename_i hend
          cases hreach
          have hset' : change fresh = .ok (false, fresh) := by simpa [hend, size] using hset
          exact absurd hset' (hfresh fresh)
        · cases hreach

end Chart

theorem Queue.insert_of_refused {α : Type} [BEq α] {q q' : Queue α} {a : α} (h : q.insert a = (false, q')) : q' = q := by
  unfold insert at h
  split at h
  · exact (Prod.mk.inj h).2.symm
  · cases h

theorem ItemSet.insert_of_refused {set set' : ItemSet} {s : State} (h : set.insert s = .ok (false, set')) : set' = set := by
  obtain ⟨l, -, h⟩ := bind_eq_ok_iff.1 h
  simp only [pure, Except.pure, Except.ok.injEq, Prod.mk.injEq] at h
  obtain ⟨hnew, rfl⟩ := h
  have hqueue : ((set.queue l).insert s).2 = set.queue l := Queue.insert_of_refused (Prod.ext hnew rfl)
  rw [hqueue]
  cases l <;> rfl

theorem Chart.insert_of_refused {c c' : Chart ItemSet} {k : Nat} {s : State} (h : c.insert k s = (.ok false, c')) :
    c' = c := by
  refine update_of_refused (fun set hset => ?_) ItemSet.insert_of_refused h
  have hsize := ItemSet.size_of_insert hset
  obtain ⟨l, -, hset⟩ := bind_eq_ok_iff.1 hset
  cases l <;> cases hset

theorem FrameChart.insert_of_refused {c c' : FrameChart} {k : Nat} {x : FrameItem} (h : insert c k x = (.ok false, c')) :
    c' = c :=
  Chart.update_of_refused (fun _ hq => by cases hq) (fun hq => Queue.insert_of_refused (Except.ok.inj hq)) h

end ChartParser
