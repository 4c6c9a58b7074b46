import ChartParser.Proofs.Frame.Reduction
/-!
# Reduction of frames comes to an end

As for states, the loops are told without a bound, and a frame that comes in brings
its predictions in by the same rules (`Enqueues`). A predicted frame predicts nothing,
so that goes two steps deep (`enqueues_of_valid`). The frames at earlier locations do
not change meanwhile, and a set holds each frame at most once for each origin, so
every reduction ends (`reduces_of_sound`).
-/
namespace ChartParser

variable {graph : FrameGraph} {input : List (List Token)} {j k : Nat} {run run' : FrameParse}

/-- Which set may grow makes no difference to what is sound. -/
theorem FrameSound.of_le_size {c : FrameChart} (h : FrameSound graph input j c) (hk : k ≤ c.size) :
    FrameSound graph input k c :=
  ⟨hk, h.nodup, h.sound, h.predicted⟩

namespace FrameGraph

/-! ## Loops without a bound -/

/-- The frame `x` goes in, and if it is new, so does the frame of what it predicts. -/
inductive Enqueues (graph : FrameGraph) (location : Nat) : Operation → FrameItem → FrameParse → FrameParse → Prop
  | known {op : Operation} {x : FrameItem} {run run' : FrameParse} : run.insert op location x = .ok (false, run') →
      Enqueues graph location op x run run'
  | last {op : Operation} {x : FrameItem} {f : Frame} {run run' : FrameParse} :
      run.insert op location x = .ok (true, run') → graph.frame x.frame = .ok f → f.prediction? = none →
      Enqueues graph location op x run run'
  | predict {op : Operation} {x : FrameItem} {f : Frame} {id : FrameId} {run run₁ run' : FrameParse} :
      run.insert op location x = .ok (true, run₁) → graph.frame x.frame = .ok f → f.prediction? = some id →
      Enqueues graph location .predict ⟨id, location⟩ run₁ run' → Enqueues graph location op x run run'

/-- The frames of set `origin` that wait for `A` are moved over it into set `location`,
from the `i`th on until none is left. -/
inductive ReducesParents (graph : FrameGraph) (location origin : Nat) (A : NonTerminal) :
    Nat → FrameParse → FrameParse → Prop
  | finished {i : Nat} {run : FrameParse} {q : Queue FrameItem} : run.chart.get origin = .ok q → q.get? i = none →
      ReducesParents graph location origin A i run run
  | skip {i : Nat} {run run' : FrameParse} {q : Queue FrameItem} {y : FrameItem} {f : Frame} :
      run.chart.get origin = .ok q → q.get? i = some y → graph.frame y.frame = .ok f → f.reduction? A = none →
      ReducesParents graph location origin A (i + 1) run run' → ReducesParents graph location origin A i run run'
  | next {i : Nat} {run run₁ run' : FrameParse} {q : Queue FrameItem} {y : FrameItem} {f : Frame} {id : FrameId} :
      run.chart.get origin = .ok q → q.get? i = some y → graph.frame y.frame = .ok f → f.reduction? A = some id →
      Enqueues graph location .complete ⟨id, y.origin⟩ run run₁ →
      ReducesParents graph location origin A (i + 1) run₁ run' → ReducesParents graph location origin A i run run'

/-- The completions of the given non-terminals are passed on one after the other. -/
inductive ReducesSymbols (graph : FrameGraph) (location origin : Nat) :
    List NonTerminal → FrameParse → FrameParse → Prop
  | nil {run : FrameParse} : ReducesSymbols graph location origin [] run run
  | cons {A : NonTerminal} {symbols : List NonTerminal} {run run₁ run' : FrameParse} :
      ReducesParents graph location origin A 0 run run₁ → ReducesSymbols graph location origin symbols run₁ run' →
      ReducesSymbols graph location origin (A :: symbols) run run'

/-- What the frames of set `location` complete is passed on, from the `i`th on until
none is left. -/
inductive Reduces (graph : FrameGraph) (location : Nat) : Nat → FrameParse → FrameParse → Prop
  | finished {i : Nat} {run : FrameParse} {q : Queue FrameItem} : run.chart.get location = .ok q → q.get? i = none →
      Reduces graph location i run run
  | skip {i : Nat} {run run' : FrameParse} {q : Queue FrameItem} {x : FrameItem} : run.chart.get location = .ok q →
      q.get? i = some x → x.origin = location → Reduces graph location (i + 1) run run' →
      Reduces graph location i run run'
  | next {i : Nat} {run run₁ run' : FrameParse} {q : Queue FrameItem} {x : FrameItem} {f : Frame} :
      run.chart.get location = .ok q → q.get? i = some x → x.origin ≠ location → graph.frame x.frame = .ok f →
      ReducesSymbols graph location x.origin f.completed run run₁ → Reduces graph location (i + 1) run₁ run' →
      Reduces graph location i run run'

/-! ## They have one result -/

theorem Enqueues.unique {op : Operation} {x : FrameItem} {run₁ run₂ : FrameParse} (h : Enqueues graph j op x run run₁)
    (h' : Enqueues graph j op x run run₂) : run₁ = run₂ := by
  induction h with
  | known hins =>
    cases h' with
    | known hins' => cases hins.symm.trans hins'; rfl
    | last hins' | predict hins' => cases hins.symm.trans hins'
  | last hins hf hnone =>
    cases h' with
    | known hins' => cases hins.symm.trans hins'
    | last hins' => cases hins.symm.trans hins'; rfl
    | predict hins' hf' hid => cases hf.symm.trans hf'; cases hnone.symm.trans hid
  | predict hins hf hid _ ih =>
    cases h' with
    | known hins' => cases hins.symm.trans hins'
    | last hins' hf' hnone => cases hf.symm.trans hf'; cases hnone.symm.trans hid
    | predict hins' hf' hid' hrest =>
      cases hins.symm.trans hins'; cases hf.symm.trans hf'; cases hid.symm.trans hid'
      exact ih hrest

theorem ReducesParents.unique {A : NonTerminal} {i : Nat} {run₁ run₂ : FrameParse}
    (h : ReducesParents graph j k A i run run₁) (h' : ReducesParents graph j k A i run run₂) : run₁ = run₂ := by
  induction h with
  | finished hget hend =>
    cases h' with
    | finished => rfl
    | skip hget' hy | next hget' hy => cases hget.symm.trans hget'; cases hend.symm.trans hy
  | skip hget hy hf hnone _ ih =>
    cases h' with
    | finished hget' hend => cases hget.symm.trans hget'; cases hend.symm.trans hy
    | skip _ _ _ _ hrest => exact ih hrest
    | next hget' hy' hf' hid =>
      cases hget.symm.trans hget'; cases hy.symm.trans hy'; cases hf.symm.trans hf'; cases hnone.symm.trans hid
  | next hget hy hf hid he _ ih =>
    cases h' with
    | finished hget' hend => cases hget.symm.trans hget'; cases hend.symm.trans hy
    | skip hget' hy' hf' hnone =>
      cases hget.symm.trans hget'; cases hy.symm.trans hy'; cases hf.symm.trans hf'; cases hnone.symm.trans hid
    | next hget' hy' hf' hid' he' hrest =>
      cases hget.symm.trans hget'; cases hy.symm.trans hy'; cases hf.symm.trans hf'; cases hid.symm.trans hid'
      cases he.unique he'
      exact ih hrest

theorem ReducesSymbols.unique {symbols : List NonTerminal} {run₁ run₂ : FrameParse}
    (h : ReducesSymbols graph j k symbols run run₁) (h' : ReducesSymbols graph j k symbols run run₂) : run₁ = run₂ := by
  induction h with
  | nil => cases h' with | nil => rfl
  | cons hA _ ih =>
    cases h' with
    | cons hA' hrest =>
      cases hA.unique hA'
      exact ih hrest

theorem Reduces.unique {i : Nat} {run₁ run₂ : FrameParse} (h : Reduces graph j i run run₁)
    (h' : Reduces graph j i run run₂) : run₁ = run₂ := by
  induction h with
  | finished hget hend =>
    cases h' with
    | finished => rfl
    | skip hget' hx | next hget' hx => cases hget.symm.trans hget'; cases hend.symm.trans hx
  | skip hget hx hself _ ih =>
    cases h' with
    | finished hget' hend => cases hget.symm.trans hget'; cases hend.symm.trans hx
    | skip _ _ _ hrest => exact ih hrest
    | next hget' hx' hne => cases hget.symm.trans hget'; cases hx.symm.trans hx'; exact absurd hself hne
  | next hget hx hne hf hs _ ih =>
    cases h' with
    | finished hget' hend => cases hget.symm.trans hget'; cases hend.symm.trans hx
    | skip hget' hx' hself => cases hget.symm.trans hget'; cases hx.symm.trans hx'; exact absurd hself hne
    | next hget' hx' _ hf' hs' hrest =>
      cases hget.symm.trans hget'; cases hx.symm.trans hx'; cases hf.symm.trans hf'
      cases hs.unique hs'
      exact ih hrest

/-! ## The bounded loops compute it -/

/-- What is predicted is there and predicts nothing beside itself. -/
theorem Valid.prediction_last (hv : graph.Valid) {f : Frame} (hf : f ∈ graph.frames) {id : FrameId}
    (hid : f.prediction? = some id) : ∃ f', graph.frame id = .ok f' ∧ f'.prediction? = none := by
  obtain ⟨f', hf', hp, -⟩ := ((hv.completed f hf).predicts id hid).2
  exact ⟨f', fetch_eq_ok_iff.2 hf', (hv.completed f' (List.mem_of_getElem? hf')).prediction?_eq_none hp⟩

theorem enqueues_of_ok (hv : graph.Valid) {op : Operation} {x : FrameItem} (h : graph.insert run op j x = .ok run') :
    Enqueues graph j op x run run' := by
  obtain ⟨⟨new, run₁⟩, hins, h⟩ := bind_eq_ok_iff.1 h
  cases new with
  | false =>
    cases h
    exact .known hins
  | true =>
    obtain ⟨f, hf, h⟩ := bind_eq_ok_iff.1 h
    split at h
    · rename_i hnone
      cases h
      exact .last hins hf hnone
    · rename_i id hid
      obtain ⟨f', hf', hnone⟩ := hv.prediction_last (List.mem_of_getElem? (fetch_eq_ok_iff.1 hf)) hid
      obtain ⟨⟨new', run₂⟩, hins', h⟩ := bind_eq_ok_iff.1 h
      cases h
      refine .predict hins hf hid ?_
      cases new' with
      | false => exact .known hins'
      | true => exact .last hins' hf' hnone

theorem grows_of_insert {op : Operation} {x : FrameItem} {new : Bool} (hj : j ≤ run.chart.size)
    (h : run.insert op j x = .ok (new, run')) : FrameChart.Grows j run.chart run'.chart := by
  obtain ⟨new', c, hins, heq⟩ := run.insert_eq op hj x
  cases h.symm.trans heq
  exact hins.grows hj

theorem Enqueues.grows {op : Operation} {x : FrameItem} (h : Enqueues graph j op x run run') (hj : j ≤ run.chart.size) :
    FrameChart.Grows j run.chart run'.chart := by
  induction h with
  | known hins | last hins => exact grows_of_insert hj hins
  | predict hins _ _ _ ih =>
    have hg := grows_of_insert hj hins
    exact hg.trans (ih (Nat.le_trans hj hg.size_le))

/-- The set at `k` is read as often as it has frames, and stays the same. -/
theorem reducesParents_of_ok (hv : graph.Valid) (hj : j ≤ run.chart.size) (hk : k < run.chart.size) (hkj : k ≠ j)
    {A : NonTerminal} {i : Nat}
    (h : ((FrameChart.items run.chart k).drop i).foldlM (graph.reduceParent j A) run = .ok run') :
    ReducesParents graph j k A i run run' ∧ FrameChart.Grows j run.chart run'.chart := by
  generalize hrest : (FrameChart.items run.chart k).drop i = rest at h
  induction rest generalizing i run with
  | nil =>
    cases h
    obtain ⟨q, -, hget, hq⟩ := FrameChart.exists_queue hk
    have hend : q.get? i = none := by
      rw [Queue.get?, hq]
      exact List.getElem?_eq_none_iff.2 (List.drop_eq_nil_iff.1 hrest)
    exact ⟨.finished hget hend, .refl j _⟩
  | cons y rest ih =>
    obtain ⟨q, -, hget, hq⟩ := FrameChart.exists_queue hk
    have hy : q.get? i = some y := by
      have hdrop : ((FrameChart.items run.chart k).drop i)[0]? = some y := by rw [hrest]; rfl
      rwa [List.getElem?_drop, Nat.add_zero, ← hq] at hdrop
    have hrest' : (FrameChart.items run.chart k).drop (i + 1) = rest := by
      rw [← List.tail_drop, hrest, List.tail_cons]
    rw [List.foldlM_cons] at h
    obtain ⟨run₁, hp, h⟩ := bind_eq_ok_iff.1 h
    obtain ⟨f, hf, hp⟩ := bind_eq_ok_iff.1 hp
    split at hp
    · rename_i hnone
      cases hp
      obtain ⟨hall, hg⟩ := ih hj hk hrest' h
      exact ⟨.skip hget hy hf hnone hall, hg⟩
    · rename_i id hid
      have he := enqueues_of_ok hv hp
      have hg := he.grows hj
      obtain ⟨hall, hg'⟩ := ih (Nat.le_trans hj hg.size_le) (Nat.lt_of_lt_of_le hk hg.size_le)
        (by rw [hg.items_eq k hkj, hrest']) h
      exact ⟨.next hget hy hf hid he hall, hg.trans hg'⟩

theorem reducesSymbols_of_ok (hv : graph.Valid) (hj : j ≤ run.chart.size) (hkj : k ≠ j) {symbols : List NonTerminal}
    (h : symbols.foldlM (graph.reduceSymbol j k) run = .ok run') :
    ReducesSymbols graph j k symbols run run' ∧ FrameChart.Grows j run.chart run'.chart := by
  induction symbols generalizing run with
  | nil =>
    cases h
    exact ⟨.nil, .refl j _⟩
  | cons A symbols ih =>
    rw [List.foldlM_cons] at h
    obtain ⟨run₁, hA, h⟩ := bind_eq_ok_iff.1 h
    obtain ⟨q, hget, hA⟩ := bind_eq_ok_iff.1 hA
    have hk : k < run.chart.size := (List.getElem?_eq_some_iff.1 (Chart.get_eq_ok_iff.1 hget)).1
    have hq : q.toList = (FrameChart.items run.chart k).drop 0 := by
      simp only [FrameChart.items, Chart.get_eq_ok_iff.1 hget, List.drop_zero]
    rw [hq] at hA
    obtain ⟨hparents, hg⟩ := reducesParents_of_ok hv hj hk hkj hA
    obtain ⟨hall, hg'⟩ := ih (Nat.le_trans hj hg.size_le) h
    exact ⟨.cons hparents hall, hg.trans hg'⟩

theorem reduces_of_ok (hv : graph.Valid) (hj : j ≤ run.chart.size) {fuel i : Nat}
    (h : graph.reduceFrom j fuel i run = .ok run') : Reduces graph j i run run' := by
  induction fuel generalizing i run with
  | zero => cases h
  | succ fuel ih =>
    obtain ⟨q, hget, h⟩ := bind_eq_ok_iff.1 h
    split at h
    · rename_i hend
      cases h
      exact .finished hget hend
    · rename_i x hx
      obtain ⟨run₁, hitem, h⟩ := bind_eq_ok_iff.1 h
      unfold reduceItem at hitem
      split at hitem
      · rename_i hself
        cases hitem
        exact .skip hget hx hself (ih hj h)
      · rename_i hne
        obtain ⟨f, hf, hitem⟩ := bind_eq_ok_iff.1 hitem
        obtain ⟨hsymbols, hg⟩ := reducesSymbols_of_ok hv hj hne hitem
        exact .next hget hx hne hf hsymbols (ih (Nat.le_trans hj hg.size_le) h)

/-! ## Loops end -/

theorem reduces_of_sound (hv : graph.Valid) (h : FrameSound graph input j run.chart) (hj : j < run.chart.size) :
    ∃ run', graph.reduce run j = .ok run' ∧ Reduces graph j 0 run run' ∧ FrameSound graph input j run'.chart := by
  obtain ⟨run', hrun, he, -⟩ := reduce_spec hv run h hj
  exact ⟨run', hrun, reduces_of_ok hv (Nat.le_of_lt hj) hrun, he.sound⟩

end FrameGraph

end ChartParser
