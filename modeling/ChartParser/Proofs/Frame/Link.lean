import ChartParser.Frame.Run
import ChartParser.Proofs.Frame.Draft
import ChartParser.Proofs.Session
/-!
# Linked parses with frames

The kept expectations and the journal take no part in what a parser with frames
decides. Two parses with the same chart at the same location go on alike, whatever
their journals, as long as their expectations can stand for one another
(`FrameLink.perform`).
-/
namespace ChartParser

/-- The same chart at the same location, with expectations that `E` relates. -/
structure FrameLink (E : Expectations → Expectations → Prop) (run run' : FrameParse) : Prop where
  chart_eq : run.chart = run'.chart
  location_eq : run.location = run'.location
  expectations : E run.expectations run'.expectations

namespace FrameLink

variable {graph : FrameGraph} {E : Expectations → Expectations → Prop} {run run' : FrameParse} {op : Operation}
  {k : Nat} {x : FrameItem}

theorem insert (h : FrameLink E run run') :
    InStep (fun x y => x.1 = y.1 ∧ FrameLink E x.2 y.2) (run.insert op k x) (run'.insert op k x) := by
  unfold FrameParse.insert
  rw [h.chart_eq]
  split
  · exact .error _
  · exact .ok ⟨rfl, rfl, h.location_eq, h.expectations⟩
  · exact .ok ⟨rfl, rfl, h.location_eq, h.expectations⟩

theorem insertPredicting (h : FrameLink E run run') :
    InStep (FrameLink E) (graph.insert run op k x) (graph.insert run' op k x) := by
  unfold FrameGraph.insert
  refine h.insert.bind ?_
  rintro ⟨new, run⟩ ⟨_, run'⟩ ⟨rfl, h⟩
  cases new with
  | false => exact .ok h
  | true =>
    refine (InStep.refl (graph.frame x.frame)).bind ?_
    rintro f _ rfl
    cases f.prediction? with
    | none => exact .ok h
    | some id => exact h.insert.bind fun _ _ ⟨_, h⟩ => .ok h

/-- A loop over the frames of one set. -/
theorem foldlM {α : Type} {f : FrameParse → α → Except Fault FrameParse} (h : FrameLink E run run') (l : List α)
    (hstep : ∀ {run run'} a, FrameLink E run run' → InStep (FrameLink E) (f run a) (f run' a)) :
    InStep (FrameLink E) (l.foldlM f run) (l.foldlM f run') := by
  have hsame : List.Forall₂ Eq l l := List.forall₂_refl l
  refine InStep.foldlM hsame h ?_
  rintro run run' h a _ rfl
  exact hstep a h

/-! ## Reduction -/

theorem get (h : FrameLink E run run') (k : Nat) : InStep Eq (run.chart.get k) (run'.chart.get k) :=
  h.chart_eq ▸ .refl _

theorem reduceItem (h : FrameLink E run run') (j : Nat) :
    InStep (FrameLink E) (graph.reduceItem run j x) (graph.reduceItem run' j x) := by
  unfold FrameGraph.reduceItem
  split
  · exact .ok h
  · refine (InStep.refl (graph.frame x.frame)).bind ?_
    rintro f _ rfl
    refine h.foldlM _ fun {run run'} A h => (h.get x.origin).bind ?_
    rintro set _ rfl
    refine h.foldlM _ fun {run run'} y h => (InStep.refl (graph.frame y.frame)).bind ?_
    rintro f' _ rfl
    cases f'.reduction? A with
    | none => exact .ok h
    | some id => exact h.insertPredicting

theorem reduceFrom (h : FrameLink E run run') (j fuel i : Nat) :
    InStep (FrameLink E) (graph.reduceFrom j fuel i run) (graph.reduceFrom j fuel i run') := by
  induction fuel generalizing i run run' with
  | zero => exact .error _
  | succ fuel ih =>
    unfold FrameGraph.reduceFrom
    refine (h.get j).bind ?_
    rintro set _ rfl
    cases set.get? i with
    | none => exact .ok h
    | some x => exact (h.reduceItem j).bind fun _ _ h => ih h (i + 1)

theorem reduce (h : FrameLink E run run') (j : Nat) :
    InStep (FrameLink E) (graph.reduce run j) (graph.reduce run' j) :=
  h.reduceFrom j _ 0

/-! ## Calls -/

/-- Nothing of the charts and locations so far matters to a parse that starts over. -/
theorem startOver (h : E run.expectations run'.expectations) :
    InStep (FrameLink E) (graph.startOver run) (graph.startOver run') := by
  have h : FrameLink E { run with chart := .empty, location := 0 } { run' with chart := .empty, location := 0 } :=
    ⟨rfl, rfl, h⟩
  exact h.insertPredicting.bind fun _ _ h => h.reduce 0

theorem restart (h : E run.expectations run'.expectations) :
    InStep (FrameLink E) (graph.restart run) (graph.restart run') :=
  startOver h

theorem scan (h : FrameLink E run run') (t : Token) (k : Nat) :
    InStep (FrameLink E) (graph.scan k run t) (graph.scan k run' t) := by
  unfold FrameGraph.scan
  refine (h.get k).bind ?_
  rintro set _ rfl
  refine h.foldlM _ fun {run run'} x h => (InStep.refl (graph.frame x.frame)).bind ?_
  rintro f _ rfl
  cases f.tokenMove? t.tokenType with
  | none => exact .ok h
  | some id => exact h.insertPredicting

theorem offer (h : FrameLink E run run') (tokens : List Token) :
    InStep (fun x y => x.1 = y.1 ∧ FrameLink E x.2 y.2) (graph.offer run tokens) (graph.offer run' tokens) := by
  unfold FrameGraph.offer
  rw [h.location_eq]
  refine (h.foldlM tokens fun {run run'} t h => h.scan t _).bind fun run run' h => ?_
  dsimp only
  rw [h.location_eq, h.chart_eq]
  split
  · exact .ok ⟨rfl, rfl, rfl, h.expectations⟩
  · have h : FrameLink E { run with chart := run'.chart, location := run'.location + 1 }
        { run' with location := run'.location + 1 } := ⟨rfl, rfl, h.expectations⟩
    refine (h.reduce _).bind fun run run' h => (h.get _).bind ?_
    rintro set _ rfl
    exact .ok ⟨rfl, h.chart_eq, h.location_eq, h.expectations⟩

theorem expected (hE : Expectations.Interchangeable graph.grammar E) (hv : graph.Valid) (h : FrameLink E run run') :
    InStep (fun x y => x.1 = y.1 ∧ FrameLink E x.2 y.2) (graph.expected run) (graph.expected run') := by
  have hframe : ∀ id, InStep (fun f f' => f ∈ graph.frames ∧ f = f') (graph.frame id) (graph.frame id) := by
    intro id
    unfold FrameGraph.frame fetch
    cases hf : graph.frames[id]? with
    | none => exact .error _
    | some f => exact .ok ⟨List.mem_of_getElem? hf, rfl⟩
  unfold FrameGraph.expected
  rw [h.chart_eq, h.location_eq]
  refine (InStep.mapM fun x _ => hframe x.frame).bind fun frames frames' hframes => ?_
  obtain ⟨hmem, hframes⟩ := (List.forall₂_and_left _ _).1 hframes
  rw [List.forall₂_eq_eq_eq] at hframes
  subst hframes
  have hlt : ∀ id ∈ frames.flatMap (·.lexerRuleIds), id < graph.grammar.lexerRules.length := by
    intro id hid
    obtain ⟨f, hf, hid⟩ := List.mem_flatMap.1 hid
    obtain ⟨r, -, hr⟩ := ((hv.completed f (hmem f hf)).mem_lexerRuleIds id).1 hid
    exact Grammar.lt_of_postDotLexerRuleId? hr
  refine (hE h.expectations hlt).bind ?_
  rintro ⟨rules, e⟩ ⟨_, e'⟩ ⟨rfl, he⟩
  exact .ok ⟨rfl, rfl, rfl, he⟩

theorem perform (hE : Expectations.Interchangeable graph.grammar E) (hv : graph.Valid) (h : FrameLink E run run')
    (call : Call) :
    InStep (fun x y => x.1 = y.1 ∧ FrameLink E x.2 y.2) (Recognizer.perform graph run call)
      (Recognizer.perform graph run' call) := by
  cases call with
  | offer tokens => exact (h.offer tokens).bind fun _ _ ⟨htaken, h⟩ => .ok ⟨congrArg Answer.taken htaken, h⟩
  | expected => exact (h.expected hE hv).bind fun _ _ ⟨hrules, h⟩ => .ok ⟨congrArg Answer.expected hrules, h⟩
  | restart => exact (restart h.expectations).bind fun _ _ h => .ok ⟨rfl, h⟩

end FrameLink

end ChartParser
