import ChartParser.Frame.Graph
import ChartParser.Proofs.Expectations
import ChartParser.Proofs.Frame.Closure
import ChartParser.Proofs.Grammar.DottedRules
import ChartParser.Proofs.Success
import Mathlib.Data.List.Sublists
/-!
# Compiling a grammar into frames

Compilation ends within its bound, since two frames never have the same rules
and the same purpose (`FrameDraft.length_frames_le`). Afterwards every frame
leads where its rules lead (`FrameGraph.ofGrammar_spec`).
-/
namespace ChartParser

def Letter.token? : Letter → Option TokenType
  | .token t => some t
  | .nonTerminal _ => none

def Letter.nonTerminal? : Letter → Option NonTerminal
  | .token _ => none
  | .nonTerminal A => some A

/-! ## What frames lead to -/

/-- What frames of a graph are told apart by. -/
def Frame.head (f : Frame) : List DottedRule × Bool := (f.rules, f.predicted)

/-- The frame at `id` has the given rules, in whatever order. -/
def Leads (frames : List Frame) (id : FrameId) (rules : List DottedRule) (predicted : Bool) : Prop :=
  ∃ f, frames[id]? = some f ∧ f.predicted = predicted ∧ ∀ r, r ∈ f.rules ↔ r ∈ rules

theorem Leads.mono {frames frames' : List Frame} {id : FrameId} {rules : List DottedRule} {predicted : Bool}
    (h : Leads frames id rules predicted) (hf : frames.map Frame.head <+: frames'.map Frame.head) :
    Leads frames' id rules predicted := by
  obtain ⟨f, hget, hp, hr⟩ := h
  have hhead : (frames'.map Frame.head)[id]? = some f.head := by
    obtain ⟨more, hmore⟩ := hf
    rw [← hmore, List.getElem?_append_left (by simpa using (List.getElem?_eq_some_iff.1 hget).1), List.getElem?_map,
      hget]
    rfl
  rw [List.getElem?_map, Option.map_eq_some_iff] at hhead
  obtain ⟨f', hget', hf'⟩ := hhead
  simp only [Frame.head, Prod.mk.injEq] at hf'
  exact ⟨f', hget', hf'.2.trans hp, fun r => by rw [hf'.1, hr]⟩

namespace Frame

/-- The frame that a letter leads to. -/
def target? (f : Frame) : Letter → Option FrameId
  | .token t => f.tokenMove? t
  | .nonTerminal A => f.reduction? A

/-- The frame knows where it leads to, and what it expects and completes. -/
structure Completed (g : Grammar) (frames : List Frame) (f : Frame) : Prop where
  leads : ∀ x id, f.target? x = some id → Leads frames id (g.skipClosure (f.kernel x)) false
  waits : ∀ x id, f.target? x = some id → ∃ r ∈ f.rules, r.postDotLetter? = some x
  stays : ∀ x, f.target? x = none → ∀ r ∈ f.rules, r.postDotLetter? ≠ some x
  predicts : ∀ id, f.prediction? = some id → f.predicted = false ∧ Leads frames id (g.predictions f.rules) true
  settled : f.prediction? = none → f.predicted = true ∨ g.predictions f.rules = []
  mem_lexerRuleIds : ∀ id, id ∈ f.lexerRuleIds ↔ ∃ r ∈ f.rules, g.postDotLexerRuleId? r = some id
  mem_completed : ∀ A, A ∈ f.completed ↔ ∃ r ∈ f.rules, r.isComplete = true ∧ r.lhs = A

theorem Completed.mono {g : Grammar} {frames frames' : List Frame} {f : Frame} (h : f.Completed g frames)
    (hf : frames.map Frame.head <+: frames'.map Frame.head) : f.Completed g frames' :=
  { h with
    leads := fun x id hx => (h.leads x id hx).mono hf
    predicts := fun id hid => ⟨(h.predicts id hid).1, (h.predicts id hid).2.mono hf⟩ }

/-- What is predicted predicts nothing beside itself. -/
theorem Completed.prediction?_eq_none {g : Grammar} {frames : List Frame} {f : Frame} (h : f.Completed g frames)
    (hp : f.predicted = true) : f.prediction? = none := by
  refine Option.eq_none_iff_forall_ne_some.2 fun id hid => ?_
  have hnot := (h.predicts id hid).1
  rw [hp] at hnot
  cases hnot

theorem mem_kernel {f : Frame} {x : Letter} {r : DottedRule} :
    r ∈ f.kernel x ↔ ∃ r₀ ∈ f.rules, r₀.postDotLetter? = some x ∧ r₀.advance? = some r := by
  simp only [kernel, List.mem_filterMap, List.mem_filter, decide_eq_true_eq, and_assoc]

theorem mem_letters {f : Frame} {x : Letter} : x ∈ f.letters ↔ ∃ r ∈ f.rules, r.postDotLetter? = some x := by
  simp [letters]

end Frame

/-! ## Drafts -/

namespace FrameDraft

variable {g : Grammar} {d : FrameDraft}

/-- The table has dotted rules of the grammar, each once; frames take their rules
from it in order, differ from one another and hold what follows from them. -/
structure Valid (g : Grammar) (d : FrameDraft) : Prop where
  nodup : d.table.rules.Nodup
  hasRule : ∀ r ∈ d.table.rules, g.HasRule r
  sublist : ∀ f ∈ d.frames, f.rules.Sublist d.table.rules
  distinct : (d.frames.map Frame.head).Nodup
  skipClosed : ∀ f ∈ d.frames, g.SkipClosed f.rules
  predictClosed : ∀ f ∈ d.frames, f.predicted = true → g.PredictClosed f.rules

theorem prefix_internAll (t : RuleTable) (rules : List DottedRule) : t.rules <+: (t.internAll rules).rules := by
  induction rules generalizing t with
  | nil => exact List.prefix_refl _
  | cons r rules ih => exact (t.prefix_intern r).trans (ih (t.intern r))

theorem nodup_internAll {t : RuleTable} (h : t.rules.Nodup) (rules : List DottedRule) :
    (t.internAll rules).rules.Nodup := by
  induction rules generalizing t with
  | nil => exact h
  | cons r rules ih => exact ih (RuleTable.nodup_intern h r)

/-- More rules of the grammar may be entered in the table. -/
theorem Valid.internAll (h : Valid g d) {rules : List DottedRule} (hr : ∀ r ∈ rules, g.HasRule r) :
    Valid g { d with table := d.table.internAll rules } := by
  refine { h with
    nodup := nodup_internAll h.nodup rules
    hasRule := fun r hmem => ?_
    sublist := fun f hf => (h.sublist f hf).trans (prefix_internAll d.table rules).sublist }
  rcases RuleTable.mem_internAll.1 hmem with hmem | hmem
  · exact h.hasRule r hmem
  · exact hr r hmem

theorem Valid.hasRule_of_mem (h : Valid g d) {f : Frame} (hf : f ∈ d.frames) : ∀ r ∈ f.rules, g.HasRule r :=
  fun r hr => h.hasRule r ((h.sublist f hf).subset hr)

/-- Where the frames lead makes no difference. -/
theorem Valid.of_heads {d' : FrameDraft} (h : Valid g d) (ht : d'.table = d.table)
    (hf : d'.frames.map Frame.head = d.frames.map Frame.head) : Valid g d' := by
  have hmem : ∀ f ∈ d'.frames, ∃ f₀ ∈ d.frames, f₀.rules = f.rules ∧ f₀.predicted = f.predicted := by
    intro f hmem
    have hhead : f.head ∈ d.frames.map Frame.head := hf ▸ List.mem_map_of_mem hmem
    obtain ⟨f₀, hmem₀, heq⟩ := List.mem_map.1 hhead
    simp only [Frame.head, Prod.mk.injEq] at heq
    exact ⟨f₀, hmem₀, heq⟩
  refine ⟨ht ▸ h.nodup, ht ▸ h.hasRule, ?_, hf ▸ h.distinct, ?_, ?_⟩
  · intro f hf
    obtain ⟨f₀, hmem₀, hr, -⟩ := hmem f hf
    exact ht ▸ hr ▸ h.sublist f₀ hmem₀
  · intro f hf
    obtain ⟨f₀, hmem₀, hr, -⟩ := hmem f hf
    exact hr ▸ h.skipClosed f₀ hmem₀
  · intro f hf hp
    obtain ⟨f₀, hmem₀, hr, hp₀⟩ := hmem f hf
    exact hr ▸ h.predictClosed f₀ hmem₀ (hp₀.trans hp)

/-- There are not more frames than sets of dotted rules, predicted or not. -/
theorem Valid.length_frames_le (h : Valid g d) : d.frames.length ≤ g.frameBound := by
  have hsub : d.frames.map Frame.head ⊆ d.table.rules.sublists ×ˢ [true, false] := by
    intro x hx
    obtain ⟨f, hf, rfl⟩ := List.mem_map.1 hx
    exact List.mem_product.2 ⟨List.mem_sublists.2 (h.sublist f hf), by simp⟩
  have hlen := (List.subperm_of_subset h.distinct hsub).length_le
  rw [List.length_map, List.length_product, List.length_sublists] at hlen
  have htable : d.table.rules.length ≤ g.dotCount := Grammar.length_le_dotCount h.nodup h.hasRule
  calc d.frames.length ≤ 2 ^ d.table.rules.length * 2 := hlen
    _ = 2 ^ (d.table.rules.length + 1) := (Nat.pow_succ ..).symm
    _ ≤ 2 ^ (g.dotCount + 1) := Nat.pow_le_pow_right (by omega) (by omega)

theorem intern_spec (h : Valid g d) {rules : List DottedRule} (predicted : Bool) (hr : ∀ r ∈ rules, g.HasRule r)
    (hs : g.SkipClosed rules) (hp : predicted = true → g.PredictClosed rules) :
    Valid g (d.intern rules predicted).2 ∧ d.frames <+: (d.intern rules predicted).2.frames ∧
      Leads (d.intern rules predicted).2.frames (d.intern rules predicted).1 rules predicted := by
  have hv := h.internAll hr
  have hmem : ∀ r, r ∈ (d.table.internAll rules).inOrder rules ↔ r ∈ rules := by
    intro r
    simp only [RuleTable.mem_inOrder, RuleTable.mem_internAll]
    exact ⟨fun hr => hr.2, fun hr => ⟨.inr hr, hr⟩⟩
  unfold intern
  dsimp only
  split
  · rename_i id hid
    obtain ⟨hlt, hfound, -⟩ := List.findIdx?_eq_some_iff_getElem.1 hid
    simp only [Bool.and_eq_true, decide_eq_true_eq] at hfound
    exact ⟨hv, List.prefix_refl _, _, List.getElem?_eq_getElem hlt, hfound.2, fun r => by rw [hfound.1, hmem]⟩
  · rename_i hnone
    have hlast : (d.frames ++ [.bare ((d.table.internAll rules).inOrder rules) predicted])[d.frames.length]? =
        some (.bare ((d.table.internAll rules).inOrder rules) predicted) := by simp
    refine ⟨?_, List.prefix_append _ _, _, hlast, rfl, hmem⟩
    -- The new frame differs from all others, or it would have been found.
    have hnew : ((d.table.internAll rules).inOrder rules, predicted) ∉ d.frames.map Frame.head := by
      intro hin
      obtain ⟨f, hf, hhead⟩ := List.mem_map.1 hin
      simp only [Frame.head, Prod.mk.injEq] at hhead
      have := List.findIdx?_eq_none_iff.1 hnone f hf
      simp [hhead] at this
    refine { hv with sublist := ?_, distinct := ?_, skipClosed := ?_, predictClosed := ?_ }
    · intro f hf
      rcases List.mem_append.1 hf with hf | hf
      · exact hv.sublist f hf
      · rw [List.mem_singleton.1 hf]
        exact List.filter_sublist
    · rw [List.map_append, List.nodup_append]
      refine ⟨h.distinct, by simp, fun x hx y hy hxy => ?_⟩
      rw [List.map_singleton, List.mem_singleton] at hy
      subst hy hxy
      exact hnew hx
    · intro f hf r hrf r' hskip
      rcases List.mem_append.1 hf with hf | hf
      · exact h.skipClosed f hf r hrf r' hskip
      · rw [List.mem_singleton.1 hf] at hrf ⊢
        exact (hmem r').2 (hs r ((hmem r).1 hrf) r' hskip)
    · intro f hf hpf r hrf A hA r' hr'
      rcases List.mem_append.1 hf with hf | hf
      · exact h.predictClosed f hf hpf r hrf A hA r' hr'
      · rw [List.mem_singleton.1 hf] at hrf hpf ⊢
        exact (hmem r').2 (hp hpf r ((hmem r).1 hrf) A hA r' hr')

/-! ## Completing a frame -/

theorem predict_spec (h : Valid g d) (f : Frame) :
    Valid g (d.predict g f).2 ∧ d.frames <+: (d.predict g f).2.frames ∧
      (∀ id, (d.predict g f).1 = some id →
        f.predicted = false ∧ Leads (d.predict g f).2.frames id (g.predictions f.rules) true) ∧
      ((d.predict g f).1 = none → f.predicted = true ∨ g.predictions f.rules = []) := by
  unfold predict
  split
  · rename_i hp
    exact ⟨h, List.prefix_refl _, by simp, fun _ => .inl hp⟩
  · rename_i hp
    have hrules : ∀ r ∈ g.predictions f.rules, g.HasRule r :=
      Grammar.predictions_induction (fun _ _ _ _ _ hr' => (Grammar.HasRule.of_mem_initialRules hr').1)
        (fun _ _ _ _ _ hr' => (Grammar.HasRule.of_mem_initialRules hr').1)
        (fun _ _ hr hs => hr.advance? (Grammar.advance?_of_skip? hs))
    split
    · rename_i hnil
      exact ⟨h, List.prefix_refl _, by simp, fun _ => .inr hnil⟩
    · obtain ⟨hv, hpre, hleads⟩ := intern_spec h true hrules (Grammar.predictions_skipClosed _)
        (fun _ => Grammar.predictions_predictClosed _)
      refine ⟨hv, hpre, ?_, by simp⟩
      rintro _ ⟨rfl⟩
      exact ⟨by simpa using hp, hleads⟩

theorem follow_spec {f : Frame} (hf : ∀ r ∈ f.rules, g.HasRule r) (letters : List Letter) (h : Valid g d) :
    Valid g (follow g f letters d).2 ∧ d.frames <+: (follow g f letters d).2.frames ∧
      (follow g f letters d).1.map Prod.fst = letters ∧
      ∀ x id, (x, id) ∈ (follow g f letters d).1 →
        Leads (follow g f letters d).2.frames id (g.skipClosure (f.kernel x)) false := by
  induction letters generalizing d with
  | nil => exact ⟨h, List.prefix_refl _, rfl, by simp [follow]⟩
  | cons x letters ih =>
    have hrules : ∀ r ∈ g.skipClosure (f.kernel x), g.HasRule r := by
      refine Grammar.skipClosure_induction (fun r hr => ?_) fun _ _ hr hs => hr.advance? (Grammar.advance?_of_skip? hs)
      obtain ⟨r₀, hr₀, -, ha⟩ := Frame.mem_kernel.1 hr
      exact (hf r₀ hr₀).advance? ha
    obtain ⟨hv, hpre, hleads⟩ := intern_spec h false hrules (Grammar.skipClosure_closed _) (by simp)
    obtain ⟨hv', hpre', hkeys, hall⟩ := ih hv
    refine ⟨hv', hpre.trans hpre', by simp [follow, hkeys], fun y id hy => ?_⟩
    rcases List.mem_cons.1 hy with hy | hy
    · cases hy
      exact hleads.mono (hpre'.map _)
    · exact hall y id hy

/-- The frame `f` made complete with the frames it leads to. -/
def done (g : Grammar) (f : Frame) (prediction? : Option FrameId) (targets : List (Letter × FrameId)) : Frame where
  rules := f.rules
  predicted := f.predicted
  tokenMoves := targets.filterMap fun
    | (.token t, next) => some (t, next)
    | (.nonTerminal _, _) => none
  reductions := targets.filterMap fun
    | (.token _, _) => none
    | (.nonTerminal A, next) => some (A, next)
  prediction?
  lexerRuleIds := (List.range g.lexerRules.length).filter (· ∈ f.rules.filterMap g.postDotLexerRuleId?)
  completed := ((f.rules.filter (·.isComplete)).map (·.lhs)).eraseDups

theorem tokenMoves_done (f : Frame) (prediction? : Option FrameId) (targets : List (Letter × FrameId)) :
    (done g f prediction? targets).tokenMoves = targets.filterMap fun e => e.1.token?.map (·, e.2) := by
  apply List.filterMap_congr
  rintro ⟨_ | _, next⟩ _ <;> rfl

theorem reductions_done (f : Frame) (prediction? : Option FrameId) (targets : List (Letter × FrameId)) :
    (done g f prediction? targets).reductions = targets.filterMap fun e => e.1.nonTerminal?.map (·, e.2) := by
  apply List.filterMap_congr
  rintro ⟨_ | _, next⟩ _ <;> rfl

theorem target?_done (f : Frame) (prediction? : Option FrameId) (targets : List (Letter × FrameId)) (x : Letter) :
    (done g f prediction? targets).target? x = targets.lookup x := by
  cases x with
  | token t =>
    rw [← lookup_filterMap Letter.token? (b := t) (by intro x; cases x <;> simp [Letter.token?]),
      ← tokenMoves_done (g := g) f prediction?]
    rfl
  | nonTerminal A =>
    rw [← lookup_filterMap Letter.nonTerminal? (b := A) (by intro x; cases x <;> simp [Letter.nonTerminal?]),
      ← reductions_done (g := g) f prediction?]
    rfl

/-- A frame is complete once its predictions and all its moves have frames. -/
theorem completed_done {frames : List Frame} {f : Frame} {prediction? : Option FrameId}
    {targets : List (Letter × FrameId)} (hkeys : targets.map Prod.fst = f.letters)
    (htargets : ∀ x id, (x, id) ∈ targets → Leads frames id (g.skipClosure (f.kernel x)) false)
    (hpred : ∀ id, prediction? = some id → f.predicted = false ∧ Leads frames id (g.predictions f.rules) true)
    (hnone : prediction? = none → f.predicted = true ∨ g.predictions f.rules = []) :
    (done g f prediction? targets).Completed g frames := by
  have hmem : ∀ x id, (done g f prediction? targets).target? x = some id → (x, id) ∈ targets := by
    intro x id hx
    rw [target?_done] at hx
    obtain ⟨l₁, l₂, rfl, -⟩ := List.lookup_eq_some_iff.1 hx
    simp
  refine ⟨?_, ?_, ?_, hpred, hnone, ?_, ?_⟩
  · intro x id hx
    exact htargets x id (hmem x id hx)
  · intro x id hx
    have hkey : x ∈ targets.map Prod.fst := List.mem_map_of_mem (hmem x id hx)
    rw [hkeys] at hkey
    exact Frame.mem_letters.1 hkey
  · intro x hx r hr hrx
    rw [target?_done] at hx
    have hmem : x ∈ targets.map Prod.fst := hkeys ▸ Frame.mem_letters.2 ⟨r, hr, hrx⟩
    obtain ⟨⟨y, id⟩, hy, rfl⟩ := List.mem_map.1 hmem
    have := List.lookup_eq_none_iff.1 hx _ hy
    simp at this
  · intro id
    simp only [done, List.mem_filter, List.mem_range, List.mem_filterMap, decide_eq_true_eq, and_iff_right_iff_imp]
    rintro ⟨r, -, hr⟩
    exact Grammar.lt_of_postDotLexerRuleId? hr
  · intro A
    simp [done, and_assoc]

theorem complete_spec (h : Valid g d) {id : FrameId} {f : Frame} (hf : d.frames[id]? = some f) :
    Valid g (d.complete g id f) ∧ d.frames.map Frame.head <+: (d.complete g id f).frames.map Frame.head ∧
      (∀ f', (d.complete g id f).frames[id]? = some f' → f'.Completed g (d.complete g id f).frames) ∧
      ∀ i < d.frames.length, i ≠ id → (d.complete g id f).frames[i]? = d.frames[i]? := by
  have hlt := (List.getElem?_eq_some_iff.1 hf).1
  have hrules : ∀ r ∈ f.rules, g.HasRule r := h.hasRule_of_mem (List.mem_of_getElem? hf)
  have hmoved : ∀ r ∈ f.rules.filterMap DottedRule.advance?, g.HasRule r := by
    intro r hr
    obtain ⟨r₀, hr₀, ha⟩ := List.mem_filterMap.1 hr
    exact (hrules r₀ hr₀).advance? ha
  obtain ⟨hv₁, hpre₁, hpred, hnone⟩ := predict_spec (h.internAll hmoved) f
  obtain ⟨hv₂, hpre₂, hkeys, htargets⟩ := follow_spec hrules f.letters hv₁
  -- The completed frame takes the place of the bare one among those found so far.
  have hpre := hpre₁.trans hpre₂
  generalize hd₁ : predict { d with table := d.table.internAll (f.rules.filterMap DottedRule.advance?) } g f = x
    at hv₁ hpre₁ hpred hnone hv₂ hpre₂ hkeys htargets hpre
  generalize hd₂ : follow g f f.letters x.2 = y at hv₂ hpre₂ hkeys htargets hpre
  have hcomplete : d.complete g id f = { y.2 with frames := y.2.frames.set id (done g f x.1 y.1) } := by
    simp only [complete, hd₁, hd₂]
    rfl
  have hget : y.2.frames[id]? = some f := by
    obtain ⟨more, hmore⟩ := hpre
    rw [← hmore, List.getElem?_append_left hlt, hf]
  have hheads : (y.2.frames.set id (done g f x.1 y.1)).map Frame.head = y.2.frames.map Frame.head := by
    obtain ⟨hlt', hf'⟩ := List.getElem?_eq_some_iff.1 hget
    have hlt' : id < (y.2.frames.map Frame.head).length := by simpa using hlt'
    have hself : (done g f x.1 y.1).head = (y.2.frames.map Frame.head)[id] := by
      rw [List.getElem_map, hf']
      rfl
    rw [List.map_set, hself, List.set_getElem_self]
  rw [hcomplete]
  refine ⟨hv₂.of_heads rfl hheads, ?_, ?_, ?_⟩
  · rw [hheads]
    exact hpre.map _
  · intro f' hf'
    rw [List.getElem?_set_self (List.getElem?_eq_some_iff.1 hget).1, Option.some.injEq] at hf'
    subst hf'
    have hdone : (done g f x.1 y.1).Completed g y.2.frames :=
      completed_done hkeys htargets (fun id hid => ⟨(hpred id hid).1, (hpred id hid).2.mono (hpre₂.map _)⟩) hnone
    exact hdone.mono (hheads ▸ List.prefix_refl _)
  · intro i hi hne
    obtain ⟨more, hmore⟩ := hpre
    rw [List.getElem?_set_ne (Ne.symm hne), ← hmore, List.getElem?_append_left hi]

/-- Every frame is completed, those found meanwhile as well. -/
theorem completeFrom_spec (fuel : Nat) {id : Nat} (h : Valid g d) (hid : id ≤ d.frames.length)
    (hfuel : g.frameBound < fuel + id) (hdone : ∀ i < id, ∀ f, d.frames[i]? = some f → f.Completed g d.frames) :
    Succeeds (completeFrom g fuel id d) fun d' => Valid g d' ∧
      d.frames.map Frame.head <+: d'.frames.map Frame.head ∧ ∀ f ∈ d'.frames, f.Completed g d'.frames := by
  induction fuel generalizing id d with
  | zero =>
    have := h.length_frames_le
    omega
  | succ fuel ih =>
    rw [completeFrom]
    split
    · rename_i hnone
      refine .pure ⟨h, List.prefix_refl _, fun f hf => ?_⟩
      obtain ⟨i, hi⟩ := List.mem_iff_getElem?.1 hf
      have hlt := (List.getElem?_eq_some_iff.1 hi).1
      have hle := List.getElem?_eq_none_iff.1 hnone
      exact hdone i (by omega) f hi
    · rename_i f hf
      have hlt := (List.getElem?_eq_some_iff.1 hf).1
      obtain ⟨hv, hpre, hnew, hold⟩ := complete_spec h hf
      have hlen := hpre.length_le
      rw [List.length_map, List.length_map] at hlen
      refine (ih hv (by omega) (by omega) fun i hi f' hf' => ?_).mono fun d' ⟨hv', hpre', hall⟩ =>
        ⟨hv', hpre.trans hpre', hall⟩
      by_cases heq : i = id
      · subst heq
        exact hnew f' hf'
      · rw [hold i (by omega) heq] at hf'
        exact (hdone i (by omega) f' hf').mono hpre

end FrameDraft

/-! ## Compiled grammars -/

/-- Every frame holds what follows from its rules and leads where they lead; the
start frame has the start rules. The rules of all frames are in the table. -/
structure FrameGraph.Valid (graph : FrameGraph) : Prop where
  skipClosed : ∀ f ∈ graph.frames, graph.grammar.SkipClosed f.rules
  predictClosed : ∀ f ∈ graph.frames, f.predicted = true → graph.grammar.PredictClosed f.rules
  completed : ∀ f ∈ graph.frames, f.Completed graph.grammar graph.frames
  start : Leads graph.frames graph.startFrame
    (graph.grammar.skipClosure (graph.grammar.initialRules graph.grammar.start)) false
  hasRule : ∀ r ∈ graph.table.rules, graph.grammar.HasRule r
  rules_subset : ∀ f ∈ graph.frames, f.rules ⊆ graph.table.rules

/-- Compilation starts with the frame of the productions of the start symbol. -/
def FrameDraft.start (g : Grammar) : FrameDraft :=
  (FrameDraft.intern ⟨.empty, []⟩ (g.skipClosure (g.initialRules g.start)) false).2

theorem FrameDraft.start_spec (g : Grammar) :
    FrameDraft.Valid g (.start g) ∧
      Leads (FrameDraft.start g).frames 0 (g.skipClosure (g.initialRules g.start)) false := by
  have hempty : FrameDraft.Valid g ⟨.empty, []⟩ := by
    constructor <;> simp [RuleTable.empty]
  have hrules : ∀ r ∈ g.skipClosure (g.initialRules g.start), g.HasRule r :=
    Grammar.skipClosure_induction (fun r hr => (Grammar.HasRule.of_mem_initialRules hr).1)
      fun _ _ hr hs => hr.advance? (Grammar.advance?_of_skip? hs)
  obtain ⟨hv, -, hstart⟩ := FrameDraft.intern_spec hempty false hrules (Grammar.skipClosure_closed _) (by simp)
  exact ⟨hv, hstart⟩

theorem FrameGraph.ofGrammar_spec (g : Grammar) :
    Succeeds (FrameGraph.ofGrammar g) fun graph => graph.grammar = g ∧ graph.Valid := by
  obtain ⟨hv, hstart⟩ := FrameDraft.start_spec g
  have hfrom := FrameDraft.completeFrom_spec (g.frameBound + 1) hv (Nat.zero_le _) (by omega) (by simp)
  exact hfrom.bind fun d ⟨hd, hpre, hall⟩ => .pure ⟨rfl, hd.skipClosed, hd.predictClosed, hall, hstart.mono hpre,
    hd.hasRule, fun f hf => (hd.sublist f hf).subset⟩

end ChartParser
