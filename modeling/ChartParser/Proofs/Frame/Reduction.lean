import ChartParser.Proofs.Frame.Chart
import ChartParser.Proofs.Lists
/-!
# Reduction closes a set of frames

Each step of a parse with frames inserts sound frames together with their
predictions (`FrameGraph.insert_spec`). The loop over a set ends within its bound
and leaves no completion that was not passed on (`FrameGraph.reduce_spec`).
-/
namespace ChartParser

variable {graph : FrameGraph} {input : List (List Token)} {j k : Nat} {run : FrameParse}

namespace FrameParse

theorem insert_eq (run : FrameParse) (op : Operation) (hk : k ≤ run.chart.size) (x : FrameItem) :
    ∃ new c, FrameChart.Inserted run.chart k x new c ∧ run.insert op k x = .ok (new,
      { run with chart := c, journal := if new then run.journal.push (.inserted op k x) else run.journal }) := by
  obtain ⟨new, c, hc, hins⟩ := FrameChart.insert_spec hk x
  refine ⟨new, c, hins, ?_⟩
  unfold insert
  cases new <;> simp [hc]

end FrameParse

namespace FrameSound

variable {c c' : FrameChart} {x : FrameItem} {new : Bool}

/-- The chart stays sound when sound frames come in together with their predictions. -/
theorem extend (h : FrameSound graph input j c) (hg : FrameChart.Grows j c c') (hn : ∀ k, (FrameChart.items c' k).Nodup)
    (hnew : ∀ y ∈ FrameChart.items c' j, y ∈ FrameChart.items c j ∨ (y.Sound graph input j ∧
      ∀ f id, graph.frames[y.frame]? = some f → f.prediction? = some id → ⟨id, j⟩ ∈ FrameChart.items c' j)) :
    FrameSound graph input j c' := by
  refine ⟨Nat.le_trans h.le_size hg.size_le, hn, fun {k y} hy => ?_, fun {k y f id} hy hf hid => ?_⟩
  · by_cases hk : k = j
    · subst hk
      rcases hnew y hy with hy | ⟨hsound, -⟩
      · exact h.sound hy
      · exact hsound
    · rw [hg.items_eq k hk] at hy
      exact h.sound hy
  · by_cases hk : k = j
    · subst hk
      rcases hnew y hy with hy | ⟨-, hpred⟩
      · exact hg.mem (h.predicted hy hf hid)
      · exact hpred f id hf hid
    · rw [hg.items_eq k hk] at hy
      exact hg.mem (h.predicted hy hf hid)

/-- A set holds each frame at most once for each origin. -/
theorem length_items_le (h : FrameSound graph input j c) (k : Nat) :
    (FrameChart.items c k).length ≤ graph.frames.length * (k + 1) := by
  have hnodup : ((FrameChart.items c k).map fun x => (x.frame, x.origin)).Nodup := by
    refine List.Nodup.map (fun x y hxy => ?_) (h.nodup k)
    simp only [Prod.mk.injEq] at hxy
    obtain ⟨f, i⟩ := x
    obtain ⟨f', i'⟩ := y
    simp_all
  have hsub : (FrameChart.items c k).map (fun x => (x.frame, x.origin)) ⊆
      List.range graph.frames.length ×ˢ List.range (k + 1) := by
    intro y hy
    obtain ⟨x, hx, rfl⟩ := List.mem_map.1 hy
    obtain ⟨f, hf, -⟩ := (h.sound hx).exists_frame
    have hlt := (List.getElem?_eq_some_iff.1 hf).1
    have hle := (h.sound hx).origin_le
    exact List.mem_product.2 ⟨List.mem_range.2 hlt, List.mem_range.2 (by omega)⟩
  have hlen := (List.subperm_of_subset hnodup hsub).length_le
  rwa [List.length_map, List.length_product, List.length_range, List.length_range] at hlen

end FrameSound

namespace FrameGraph

/-- A frame goes in with the frame of its predictions, or both are there already. -/
theorem insert_spec (hv : graph.Valid) (run : FrameParse) (h : FrameSound graph input j run.chart) (op : Operation)
    {x : FrameItem} (hx : x.Sound graph input j) : Succeeds (graph.insert run op j x) fun run' =>
      FrameExtends graph input j run run' ∧ x ∈ FrameChart.items run'.chart j := by
  obtain ⟨f, hf, -, -⟩ := hx.exists_frame
  have hcompleted := hv.completed f (List.mem_of_getElem? hf)
  obtain ⟨new, c, hins, heq⟩ := run.insert_eq op h.le_size x
  have hg := hins.grows h.le_size
  have hmem : x ∈ FrameChart.items c j := hins.mem_iff.2 (.inr ⟨rfl, rfl⟩)
  unfold insert
  refine .bind_ok heq ?_
  cases new with
  | false =>
    have hold : x ∈ FrameChart.items run.chart j := by
      by_contra hno
      have := hins.new_iff.2 hno
      cases this
    have hs : FrameSound graph input j c := h.extend hg (hins.nodup h.nodup) fun y hy => by
      rcases hins.mem_iff.1 hy with hy | ⟨-, rfl⟩
      · exact .inl hy
      · exact .inl hold
    exact .pure ⟨⟨hs, hg, rfl, rfl⟩, hmem⟩
  | true =>
    refine .bind_ok (fetch_eq_ok_iff.2 hf) ?_
    cases hp : f.prediction? with
    | none =>
      dsimp only
      have hs : FrameSound graph input j c := h.extend hg (hins.nodup h.nodup) fun y hy => by
        rcases hins.mem_iff.1 hy with hy | ⟨-, rfl⟩
        · exact .inl hy
        · refine .inr ⟨hx, fun f' id hf' hid => ?_⟩
          cases hf.symm.trans hf'
          rw [hp] at hid
          cases hid
      exact .pure ⟨⟨hs, hg, rfl, rfl⟩, hmem⟩
    | some id =>
      dsimp only
      have hle := Nat.le_trans h.le_size hg.size_le
      obtain ⟨new', c', hins', heq'⟩ := FrameParse.insert_eq { run with
        chart := c, journal := run.journal.push (.inserted op j x) } .predict hle ⟨id, j⟩
      have hg' := hg.trans (hins'.grows hle)
      have hthere : (⟨id, j⟩ : FrameItem) ∈ FrameChart.items c' j := hins'.mem_iff.2 (.inr ⟨rfl, rfl⟩)
      have hs : FrameSound graph input j c' := h.extend hg' (hins'.nodup (hins.nodup h.nodup)) fun y hy => by
        rcases hins'.mem_iff.1 hy with hy | ⟨-, rfl⟩
        · rcases hins.mem_iff.1 hy with hy | ⟨-, rfl⟩
          · exact .inl hy
          · refine .inr ⟨hx, fun f' id' hf' hid => ?_⟩
            cases hf.symm.trans hf'
            cases hp.symm.trans hid
            exact hthere
        · -- The frame of the predictions predicts nothing that it does not hold.
          refine .inr ⟨hx.prediction hf hcompleted hp, fun f' id' hf' hid => ?_⟩
          obtain ⟨f₁, hf₁, htrue, -⟩ := (hcompleted.predicts _ hp).2
          cases hf₁.symm.trans hf'
          have hnone := (hv.completed _ (List.mem_of_getElem? hf₁)).prediction?_eq_none htrue
          cases hnone.symm.trans hid
      exact .bind_ok heq' (.pure ⟨⟨hs, hg', rfl, rfl⟩, (hins'.grows hle).mem hmem⟩)

/-! ## Reduction -/

/-- If the frame `y` waits for `A`, it has moved over it into the set at `j`. -/
def Reduced (graph : FrameGraph) (c : FrameChart) (j : Nat) (A : NonTerminal) (y : FrameItem) : Prop :=
  ∀ f id, graph.frames[y.frame]? = some f → f.reduction? A = some id → ⟨id, y.origin⟩ ∈ FrameChart.items c j

theorem Reduced.grows {c c' : FrameChart} {A : NonTerminal} {y : FrameItem} {m : Nat} (h : Reduced graph c m A y)
    (hg : FrameChart.Grows j c c') : Reduced graph c' m A y :=
  fun f id hf hid => hg.mem (h f id hf hid)

/-- What the frame `x` completes has been passed on to all frames at its origin. -/
def PassedOn (graph : FrameGraph) (c : FrameChart) (j : Nat) (x : FrameItem) : Prop :=
  x.origin < j → ∀ f, graph.frames[x.frame]? = some f → ∀ A ∈ f.completed,
    ∀ y ∈ FrameChart.items c x.origin, Reduced graph c j A y

theorem PassedOn.grows {c c' : FrameChart} {x : FrameItem} {m : Nat} (h : PassedOn graph c m x)
    (hg : FrameChart.Grows j c c') (hm : m ≤ j) : PassedOn graph c' m x := by
  intro hlt f hf A hA y hy
  rw [hg.items_eq _ (by omega)] at hy
  exact (h hlt f hf A hA y hy).grows hg

theorem reduceParent_spec (hv : graph.Valid) (h : FrameSound graph input j run.chart) {x : FrameItem}
    (hx : x.Sound graph input j) (hlt : x.origin < j) {f : Frame} (hf : graph.frames[x.frame]? = some f)
    {A : NonTerminal} (hA : A ∈ f.completed) {y : FrameItem} (hy : y ∈ FrameChart.items run.chart x.origin) :
    Succeeds (graph.reduceParent j A run y) fun run' =>
      FrameExtends graph input j run run' ∧ Reduced graph run'.chart j A y := by
  obtain ⟨f₁, hf₁, -, hd⟩ := hx.exists_frame
  cases hf.symm.trans hf₁
  obtain ⟨d, hdf, hc, rfl⟩ := ((hv.completed f (List.mem_of_getElem? hf)).mem_completed A).1 hA
  obtain ⟨fy, hfy, hget, hmem, hr⟩ := h.frame_eq hy
  unfold reduceParent
  refine .bind_ok hget ?_
  cases hid : fy.reduction? d.lhs with
  | none =>
    dsimp only
    refine .pure ⟨.refl h, fun f' id hf' hid' => ?_⟩
    cases hfy.symm.trans hf'
    cases hid.symm.trans hid'
  | some id =>
    dsimp only
    have hle : y.origin ≤ j := Nat.le_trans (h.sound hy).origin_le hx.origin_le
    have hplaced : FrameItem.Placed graph input j ⟨id, y.origin⟩ :=
      .complete hx.placed hlt hf hA (h.sound hy).placed hfy hid
    have htarget : FrameItem.Sound graph input j ⟨id, y.origin⟩ := by
      refine .of_target? (l := .nonTerminal d.lhs) (hv.completed fy hmem) hid hle hplaced fun r hrk => ?_
      obtain ⟨r₀, hr₀, hl, ha⟩ := Frame.mem_kernel.1 hrk
      obtain ⟨s, hs, hsl⟩ := Option.map_eq_some_iff.1 hl
      rw [Symbol.letter_eq_nonTerminal.1 hsl] at hs
      exact .complete (hr r₀ hr₀) hs (hd d hdf) hc ha
    refine (insert_spec hv run h .complete htarget).mono fun run' ⟨he, hin⟩ => ⟨he, fun f' id' hf' hid' => ?_⟩
    cases hfy.symm.trans hf'
    cases hid.symm.trans hid'
    exact hin

theorem reduceSymbol_spec (hv : graph.Valid) (h : FrameSound graph input j run.chart) {x : FrameItem}
    (hx : x.Sound graph input j) (hlt : x.origin < j) {f : Frame} (hf : graph.frames[x.frame]? = some f)
    {A : NonTerminal} (hA : A ∈ f.completed) :
    Succeeds (graph.reduceSymbol j x.origin run A) fun run' => FrameExtends graph input j run run' ∧
      ∀ y ∈ FrameChart.items run.chart x.origin, Reduced graph run'.chart j A y := by
  have hsize : x.origin < run.chart.size := Nat.lt_of_lt_of_le hlt h.le_size
  obtain ⟨q, -, hget, hq⟩ := FrameChart.exists_queue hsize
  unfold reduceSymbol
  refine .bind_ok hget ?_
  rw [hq]
  refine Succeeds.foldlM .trans .right (fun he hr => hr.grows he.grows) (.refl h) fun run₁ he y hy => ?_
  exact reduceParent_spec hv he.sound hx hlt hf hA (he.grows.mem hy)

theorem reduceItem_spec (hv : graph.Valid) (h : FrameSound graph input j run.chart) {x : FrameItem}
    (hx : x ∈ FrameChart.items run.chart j) : Succeeds (graph.reduceItem run j x) fun run' =>
      FrameExtends graph input j run run' ∧ PassedOn graph run'.chart j x := by
  have hsound := h.sound hx
  unfold reduceItem
  split
  · rename_i heq
    exact .pure ⟨.refl h, fun hlt => absurd heq (by omega)⟩
  · rename_i hne
    have hlt : x.origin < j := Nat.lt_of_le_of_ne hsound.origin_le hne
    obtain ⟨f, hf, hget, -, -⟩ := h.frame_eq hx
    refine .bind_ok hget ?_
    have hfold : Succeeds (f.completed.foldlM (graph.reduceSymbol j x.origin) run) fun run' =>
        FrameExtends graph input j run run' ∧ ∀ A ∈ f.completed,
          ∀ y ∈ FrameChart.items run.chart x.origin, Reduced graph run'.chart j A y := by
      refine Succeeds.foldlM .trans .right (fun he hd y hy => (hd y hy).grows he.grows) (.refl h) fun run₁ he A hA => ?_
      refine (reduceSymbol_spec hv he.sound hsound hlt hf hA).mono fun run₂ ⟨he₂, hall⟩ => ⟨he₂, fun y hy => hall y ?_⟩
      exact he.grows.mem hy
    refine hfold.mono fun run' ⟨he, hall⟩ => ⟨he, fun _ f' hf' A hA y hy => ?_⟩
    cases hf.symm.trans hf'
    rw [he.grows.items_eq _ (by omega)] at hy
    exact hall A hA y hy

theorem reduceFrom_spec (hv : graph.Valid) {fuel i : Nat} (h : FrameSound graph input j run.chart)
    (hj : j < run.chart.size) (hfuel : graph.frames.length * (j + 1) < fuel + i)
    (hi : i ≤ (FrameChart.items run.chart j).length)
    (hdone : ∀ x ∈ (FrameChart.items run.chart j).take i, PassedOn graph run.chart j x) :
    Succeeds (graph.reduceFrom j fuel i run) fun run' => FrameExtends graph input j run run' ∧
      ∀ x ∈ FrameChart.items run'.chart j, PassedOn graph run'.chart j x := by
  induction fuel generalizing i run with
  | zero =>
    have := h.length_items_le j
    omega
  | succ fuel ih =>
    obtain ⟨q, -, hget, hq⟩ := FrameChart.exists_queue hj
    rw [reduceFrom]
    refine .bind_ok hget ?_
    simp only [Queue.get?, hq]
    cases hx : (FrameChart.items run.chart j)[i]? with
    | none =>
      dsimp only
      refine .pure ⟨.refl h, fun x hmem => hdone x ?_⟩
      rwa [List.take_of_length_le (List.getElem?_eq_none_iff.1 hx)]
    | some x =>
      dsimp only
      refine (reduceItem_spec hv h (List.mem_of_getElem? hx)).bind fun run₁ ⟨he, hnew⟩ => ?_
      have hpre := he.grows.items_le j
      have hlt := (List.getElem?_eq_some_iff.1 hx).1
      have hlen := hpre.length_le
      refine (ih he.sound (he.lt_size hj) (by omega) (by omega) ?_).mono fun run₂ ⟨he₂, hall⟩ => ⟨he.trans he₂, hall⟩
      exact forall_take_succ hpre hx (fun y hy => (hdone y hy).grows he.grows (Nat.le_refl j)) hnew

theorem reduce_spec (hv : graph.Valid) (run : FrameParse) (h : FrameSound graph input j run.chart)
    (hj : j < run.chart.size) : Succeeds (graph.reduce run j) fun run' => FrameExtends graph input j run run' ∧
      ∀ x ∈ FrameChart.items run'.chart j, PassedOn graph run'.chart j x :=
  reduceFrom_spec hv h hj (by omega) (Nat.zero_le _) (by simp)

end FrameGraph

end ChartParser
