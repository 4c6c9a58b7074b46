import ChartParser.Frame.Run
import ChartParser.Proofs.Chart.Insertion
import ChartParser.Proofs.Deduction.Basic
import ChartParser.Proofs.Frame.Draft
/-!
# Charts of frames

A chart of frames is sound for an input when every rule of every frame in it is
deducible from the frame's origin, when the moves of the graph place the frame where it
is, and when frames come with their predictions. Inserting a sound frame keeps the chart
sound (`FrameGraph.insert_spec`).
-/
namespace ChartParser

namespace FrameChart

variable {c c' c'' : FrameChart} {j k : Nat}

/-- The frames at `j`, in order of insertion. -/
def items (c : FrameChart) (j : Nat) : List FrameItem :=
  match c.get? j with
  | none => []
  | some q => q.toList

theorem exists_queue (hj : j < c.size) : ∃ q, c.get? j = some q ∧ c.get j = .ok q ∧ q.toList = items c j := by
  have hq : c.get? j = some c.sets[j] := List.getElem?_eq_getElem hj
  exact ⟨c.sets[j], hq, fetch_eq_ok_iff.2 hq, by simp only [items, hq]⟩

theorem lt_size_of_mem {x : FrameItem} (h : x ∈ items c j) : j < c.size := by
  by_contra hj
  have hnone : c.get? j = none := List.getElem?_eq_none_iff.2 (Nat.le_of_not_lt hj)
  simp [items, hnone] at h

/-- `c'` is `c` with `x` offered to the set at `j`; `new` says whether it was taken. -/
structure Inserted (c : FrameChart) (j : Nat) (x : FrameItem) (new : Bool) (c' : FrameChart) : Prop where
  size_eq : c'.size = max c.size (j + 1)
  new_iff : new = true ↔ x ∉ items c j
  items_eq : ∀ k, items c' k = if k = j ∧ new = true then items c k ++ [x] else items c k

theorem insert_spec (hj : j ≤ c.size) (x : FrameItem) :
    ∃ new c', insert c j x = (.ok new, c') ∧ Inserted c j x new c' := by
  have hitems : ((c.get? j).getD .empty).toList = items c j := by
    unfold items
    cases c.get? j <;> rfl
  generalize hq : (c.get? j).getD .empty = q at hitems
  have hins : Except.ok (q.insert x) = (.ok ((q.insert x).1, (q.insert x).2) : Except Fault _) := rfl
  obtain ⟨c', hc', hsize, hget⟩ := Chart.update_eq_ok (fun q => .ok (q.insert x)) hj hq hins
  refine ⟨_, c', hc', hsize, ?_, fun k => ?_⟩
  · simp [Queue.insert_fst, Queue.contains, hitems]
  · by_cases hk : k = j
    · subst hk
      have hk' : items c' k = (q.insert x).2.toList := by simp [items, hget]
      rw [hk', ← hitems]
      cases h : q.contains x
      · simp [Queue.insert_of_not_contains h]
      · simp [Queue.insert_of_contains h]
    · simp [items, hget, hk]

/-- Between `c` and `c'` only the set at `j` has grown. -/
structure Grows (j : Nat) (c c' : FrameChart) : Prop where
  size_le : c.size ≤ c'.size
  le_size : c'.size ≤ max c.size (j + 1)
  items_eq : ∀ k, k ≠ j → items c' k = items c k
  items_le : ∀ k, items c k <+: items c' k

theorem Grows.refl (j : Nat) (c : FrameChart) : Grows j c c :=
  ⟨Nat.le_refl _, by omega, fun _ _ => rfl, fun _ => List.prefix_refl _⟩

theorem Grows.trans (h : Grows j c c') (h' : Grows j c' c'') : Grows j c c'' := by
  have := h.le_size
  have := h'.le_size
  refine ⟨Nat.le_trans h.size_le h'.size_le, by omega, fun k hk => ?_, fun k => ?_⟩
  · rw [h'.items_eq k hk, h.items_eq k hk]
  · exact (h.items_le k).trans (h'.items_le k)

theorem Grows.mem {x : FrameItem} (h : Grows j c c') (hx : x ∈ items c k) : x ∈ items c' k :=
  (h.items_le k).subset hx

namespace Inserted

variable {x y : FrameItem} {new : Bool}

theorem grows (h : Inserted c j x new c') (hj : j ≤ c.size) : Grows j c c' := by
  have hsize := h.size_eq
  refine ⟨by omega, by omega, fun k hk => ?_, fun k => ?_⟩
  · rw [h.items_eq, if_neg fun hk' => hk hk'.1]
  · rw [h.items_eq]
    split
    · exact List.prefix_append _ _
    · exact List.prefix_refl _

theorem mem_iff (h : Inserted c j x new c') : y ∈ items c' k ↔ y ∈ items c k ∨ (k = j ∧ y = x) := by
  rw [h.items_eq]
  split
  · rename_i hk
    simp [hk.1]
  · rename_i hk
    constructor
    · exact .inl
    · rintro (hy | ⟨rfl, rfl⟩)
      · exact hy
      · by_contra hy
        exact hk ⟨rfl, h.new_iff.2 hy⟩

theorem nodup (h : Inserted c j x new c') (hc : ∀ k, (items c k).Nodup) (k : Nat) : (items c' k).Nodup := by
  rw [h.items_eq]
  split
  · rename_i hk
    obtain ⟨rfl, hnew⟩ := hk
    refine List.nodup_append.2 ⟨hc k, by simp, fun y hy z hz => ?_⟩
    rintro rfl
    rw [List.mem_singleton.1 hz] at hy
    exact h.new_iff.1 hnew hy
  · exact hc k

end Inserted

end FrameChart

/-! ## Soundness -/

variable {graph : FrameGraph} {input : List (List Token)} {j k i : Nat}

/-- The moves of the graph place the frame in the set at `j`. They do not speak of the
order in which frames get there. -/
inductive FrameItem.Placed (graph : FrameGraph) (input : List (List Token)) : Nat → FrameItem → Prop
  | start : Placed graph input 0 ⟨graph.startFrame, 0⟩
  | predict {x : FrameItem} {f : Frame} {id : FrameId} {j : Nat} (h : Placed graph input j x)
    (hf : graph.frames[x.frame]? = some f) (hid : f.prediction? = some id) : Placed graph input j ⟨id, j⟩
  | scan {x : FrameItem} {f : Frame} {id : FrameId} {t : TokenType} {j : Nat} (h : Placed graph input j x)
    (hf : graph.frames[x.frame]? = some f) (ht : Offers input j t) (hid : f.tokenMove? t = some id) :
    Placed graph input (j + 1) ⟨id, x.origin⟩
  | complete {x y : FrameItem} {f f' : Frame} {id : FrameId} {A : NonTerminal} {j : Nat} (h : Placed graph input j x)
    (hlt : x.origin < j) (hf : graph.frames[x.frame]? = some f) (hA : A ∈ f.completed)
    (hy : Placed graph input x.origin y) (hf' : graph.frames[y.frame]? = some f') (hid : f'.reduction? A = some id) :
    Placed graph input j ⟨id, y.origin⟩

/-- The moves need no more than the types of tokens that the input offers. -/
theorem FrameItem.Placed.congr {input' : List (List Token)} {x : FrameItem} (h : x.Placed graph input j)
    (hin : ∀ k t, Offers input k t → Offers input' k t) : x.Placed graph input' j := by
  induction h with
  | start => exact .start
  | predict _ hf hid ih => exact .predict ih hf hid
  | scan _ hf ht hid ih => exact .scan ih hf (hin _ _ ht) hid
  | complete _ hlt hf hA _ hf' hid ih ihy => exact .complete ih hlt hf hA ihy hf' hid

/-- The frame is placed at `j` and exists, and its rules are deducible from its origin
to `j`. A predicted frame begins where it is. -/
structure FrameItem.Sound (graph : FrameGraph) (input : List (List Token)) (j : Nat) (x : FrameItem) : Prop where
  origin_le : x.origin ≤ j
  placed : x.Placed graph input j
  exists_frame : ∃ f, graph.frames[x.frame]? = some f ∧ (f.predicted = true → x.origin = j) ∧
    ∀ r ∈ f.rules, Deducible graph.grammar input r x.origin j

theorem FrameItem.Sound.of_leads {id : FrameId} {rules : List DottedRule} {predicted : Bool}
    (h : Leads graph.frames id rules predicted) (hi : i ≤ j) (hplaced : FrameItem.Placed graph input j ⟨id, i⟩)
    (hp : predicted = true → i = j) (hr : ∀ r ∈ rules, Deducible graph.grammar input r i j) :
    FrameItem.Sound graph input j ⟨id, i⟩ := by
  obtain ⟨f, hf, rfl, hmem⟩ := h
  exact ⟨hi, hplaced, f, hf, hp, fun r hrf => hr r ((hmem r).1 hrf)⟩

/-- Where a frame leads to is sound if the moved rules are deducible. -/
theorem FrameItem.Sound.of_target? {f : Frame} {l : Letter} {id : FrameId} (hf : f.Completed graph.grammar graph.frames)
    (hl : f.target? l = some id) (hi : i ≤ j) (hplaced : FrameItem.Placed graph input j ⟨id, i⟩)
    (hr : ∀ r ∈ f.kernel l, Deducible graph.grammar input r i j) : FrameItem.Sound graph input j ⟨id, i⟩ :=
  .of_leads (hf.leads l id hl) hi hplaced (by simp) (Grammar.skipClosure_induction hr fun _ _ h hs => h.skip hs)

/-- The predictions of a sound frame are sound. -/
theorem FrameItem.Sound.prediction {x : FrameItem} {f : Frame} {id : FrameId} (h : x.Sound graph input j)
    (hget : graph.frames[x.frame]? = some f) (hf : f.Completed graph.grammar graph.frames)
    (hid : f.prediction? = some id) : FrameItem.Sound graph input j ⟨id, j⟩ := by
  obtain ⟨f', hget', -, hr⟩ := h.exists_frame
  cases hget.symm.trans hget'
  refine .of_leads (hf.predicts id hid).2 (Nat.le_refl j) (.predict h.placed hget hid) (fun _ => rfl) ?_
  apply Grammar.predictions_induction
  · intro r hrf A hA r' hr'
    exact .predict (hr r hrf) (DottedRule.postDotNonTerminal?_eq_some_iff.1 hA) hr'
  · intro r A hrd hA r' hr'
    exact .predict hrd (DottedRule.postDotNonTerminal?_eq_some_iff.1 hA) hr'
  · intro r r' hrd hs
    exact hrd.skip hs

/-- The chart holds sound frames, each once, with the frames of their predictions. -/
structure FrameSound (graph : FrameGraph) (input : List (List Token)) (j : Nat) (c : FrameChart) : Prop where
  le_size : j ≤ c.size
  nodup : ∀ k, (FrameChart.items c k).Nodup
  sound : ∀ {k x}, x ∈ FrameChart.items c k → x.Sound graph input k
  predicted : ∀ {k x f id}, x ∈ FrameChart.items c k → graph.frames[x.frame]? = some f → f.prediction? = some id →
    ⟨id, k⟩ ∈ FrameChart.items c k

/-- Some frame of the set at `j` with this origin has the rule. -/
def FrameGraph.Holds (graph : FrameGraph) (c : FrameChart) (j : Nat) (r : DottedRule) (i : Nat) : Prop :=
  ∃ x ∈ FrameChart.items c j, x.origin = i ∧ ∃ f, graph.frames[x.frame]? = some f ∧ r ∈ f.rules

namespace FrameSound

variable {c : FrameChart} {x : FrameItem} {r : DottedRule}

theorem frame_eq (h : FrameSound graph input j c) (hx : x ∈ FrameChart.items c k) :
    ∃ f, graph.frames[x.frame]? = some f ∧ graph.frame x.frame = .ok f ∧ f ∈ graph.frames ∧
      ∀ r ∈ f.rules, Deducible graph.grammar input r x.origin k := by
  obtain ⟨f, hf, -, hr⟩ := (h.sound hx).exists_frame
  exact ⟨f, hf, fetch_eq_ok_iff.2 hf, List.mem_of_getElem? hf, hr⟩

theorem deducible_of_holds (h : FrameSound graph input j c) (hr : graph.Holds c k r i) :
    Deducible graph.grammar input r i k := by
  obtain ⟨x, hx, rfl, f, hf, hr⟩ := hr
  obtain ⟨f', hf', -, -, hall⟩ := h.frame_eq hx
  cases hf.symm.trans hf'
  exact hall r hr

/-- Soundness does not depend on what comes later. -/
theorem extend_input {more : List (List Token)} {k : Nat} (h : FrameSound graph input j c)
    (hk : k ≤ c.size) : FrameSound graph (input ++ more) k c := by
  refine ⟨hk, h.nodup, fun hx => ?_, h.predicted⟩
  obtain ⟨hle, hplaced, f, hf, hp, hr⟩ := h.sound hx
  refine ⟨hle, hplaced.congr fun k t ht => ?_, f, hf, hp, fun r hrf => ?_⟩
  · exact (Deducible.offers_append ht.lt_length).2 ht
  · exact (Deducible.append_iff (hr r hrf).location_le).2 (hr r hrf)

end FrameSound

/-- `run'` comes from `run` by sound insertions into the set at `j`. -/
structure FrameExtends (graph : FrameGraph) (input : List (List Token)) (j : Nat) (run run' : FrameParse) : Prop where
  sound : FrameSound graph input j run'.chart
  grows : FrameChart.Grows j run.chart run'.chart
  location_eq : run'.location = run.location
  expectations_eq : run'.expectations = run.expectations

namespace FrameExtends

variable {run run' run'' : FrameParse}

theorem refl (h : FrameSound graph input j run.chart) : FrameExtends graph input j run run := ⟨h, .refl j _, rfl, rfl⟩

theorem trans (h : FrameExtends graph input j run run') (h' : FrameExtends graph input j run' run'') :
    FrameExtends graph input j run run'' :=
  ⟨h'.sound, h.grows.trans h'.grows, h'.location_eq.trans h.location_eq,
    h'.expectations_eq.trans h.expectations_eq⟩

theorem right (h : FrameExtends graph input j run run') : FrameExtends graph input j run' run' := .refl h.sound

theorem lt_size (h : FrameExtends graph input j run run') (hk : k < run.chart.size) : k < run'.chart.size :=
  Nat.lt_of_lt_of_le hk h.grows.size_le

end FrameExtends

end ChartParser
