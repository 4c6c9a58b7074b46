import ChartParser.Proofs.Frame.Draft
import Mathlib.Data.List.Intervals
import Mathlib.Logic.Relation
/-!
# The frames of a compiled grammar

Frames wait in line to be completed, and every frame found meanwhile joins the
line at its end (`FrameDraft.Works`). The line runs empty after each frame was
completed once, and what a frame leads to is then in the graph
(`FrameGraph.compilation_wellFormed`).
-/
namespace ChartParser

/-- A move over a letter or a prediction leads from the frame at `i` to the frame at `j`. -/
def FrameEdge (frames : List Frame) (i j : FrameId) : Prop :=
  ∃ f, frames[i]? = some f ∧ ((∃ x, f.target? x = some j) ∨ f.prediction? = some j)

/-- A move has one target, and nothing is listed twice. -/
structure Frame.Arranged (f : Frame) : Prop where
  tokenMoves : (f.tokenMoves.map Prod.fst).Nodup
  reductions : (f.reductions.map Prod.fst).Nodup
  lexerRuleIds : f.lexerRuleIds.Pairwise (· < ·)
  completed : f.completed.Nodup

theorem Frame.arranged_bare (rules : List DottedRule) (predicted : Bool) : (Frame.bare rules predicted).Arranged := by
  constructor <;> simp [Frame.bare]

namespace FrameDraft

variable {g : Grammar} {d d' : FrameDraft}

/-! ## Frames found on the way -/

/-- What `d'` has more than `d` are bare frames, and their places are among `ids`. -/
structure Extends (d d' : FrameDraft) (ids : List FrameId) : Prop where
  added : ∃ more, d'.frames = d.frames ++ more ∧ ∀ f ∈ more, f = .bare f.rules f.predicted ∧ f.rules ≠ []
  mem_ids : ∀ i, d.frames.length ≤ i → i < d'.frames.length → i ∈ ids

theorem Extends.refl (d : FrameDraft) (ids : List FrameId) : d.Extends d ids :=
  ⟨⟨[], by simp⟩, fun _ h h' => absurd h (by omega)⟩

theorem Extends.trans {d'' : FrameDraft} {ids ids' : List FrameId} (h : d.Extends d' ids) (h' : d'.Extends d'' ids') :
    d.Extends d'' (ids ++ ids') := by
  obtain ⟨more, hmore, hbare⟩ := h.added
  obtain ⟨more', hmore', hbare'⟩ := h'.added
  refine ⟨⟨more ++ more', by rw [hmore', hmore, List.append_assoc], fun f hf => ?_⟩, fun i hi hlt => ?_⟩
  · rcases List.mem_append.1 hf with hf | hf
    · exact hbare f hf
    · exact hbare' f hf
  · by_cases hmid : i < d'.frames.length
    · exact List.mem_append_left _ (h.mem_ids i hi hmid)
    · exact List.mem_append_right _ (h'.mem_ids i (by omega) hlt)

theorem intern_extends (d : FrameDraft) {rules : List DottedRule} (predicted : Bool) (hne : rules ≠ []) :
    d.Extends (d.intern rules predicted).2 [(d.intern rules predicted).1] := by
  unfold intern
  dsimp only
  split
  · exact ⟨⟨[], by simp⟩, fun i hi hlt => absurd hi (by simpa using hlt)⟩
  · refine ⟨⟨[.bare ((d.table.internAll rules).inOrder rules) predicted], rfl, fun f hf => ?_⟩, fun i hi hlt => ?_⟩
    · rw [List.mem_singleton.1 hf]
      obtain ⟨r, hr⟩ := List.exists_mem_of_ne_nil rules hne
      have hmem : r ∈ (d.table.internAll rules).inOrder rules := by simp [hr]
      exact ⟨rfl, List.ne_nil_of_mem hmem⟩
    · simp only [List.length_append, List.length_singleton] at hlt
      exact List.mem_singleton.2 (by omega)

theorem predict_extends (d : FrameDraft) (g : Grammar) (f : Frame) :
    d.Extends (d.predict g f).2 (d.predict g f).1.toList := by
  unfold predict
  split
  · exact .refl d _
  · split
    · exact .refl d _
    · rename_i hne
      exact intern_extends d true hne

theorem follow_extends {f : Frame} {letters : List Letter} (hl : ∀ x ∈ letters, x ∈ f.letters) (d : FrameDraft) :
    d.Extends (follow g f letters d).2 ((follow g f letters d).1.map Prod.snd) := by
  induction letters generalizing d with
  | nil => exact .refl d _
  | cons x letters ih =>
    have hne : g.skipClosure (f.kernel x) ≠ [] := by
      obtain ⟨r, hr, hx⟩ := Frame.mem_letters.1 (hl x (by simp))
      obtain ⟨s, hs, -⟩ := Option.map_eq_some_iff.1 hx
      obtain ⟨r', hr'⟩ := DottedRule.exists_advance hs
      exact List.ne_nil_of_mem (Grammar.subset_skipClosure r' (Frame.mem_kernel.2 ⟨r, hr, hx, hr'⟩))
    exact (intern_extends d false hne).trans (ih (fun y hy => hl y (by simp [hy])) _)

/-! ## Completing one frame -/

theorem map_fst_follow (g : Grammar) (f : Frame) (letters : List Letter) (d : FrameDraft) :
    (follow g f letters d).1.map Prod.fst = letters := by
  induction letters generalizing d with
  | nil => rfl
  | cons x letters ih => simp [follow, ih]

theorem arranged_done {f : Frame} {prediction? : Option FrameId} {targets : List (Letter × FrameId)}
    (hkeys : (targets.map Prod.fst).Nodup) : (done g f prediction? targets).Arranged where
  tokenMoves := by
    rw [tokenMoves_done]
    refine nodup_keys_filterMap (fun x y t hx hy => ?_) hkeys
    cases x <;> cases y <;> simp_all [Letter.token?]
  reductions := by
    rw [reductions_done]
    refine nodup_keys_filterMap (fun x y A hx hy => ?_) hkeys
    cases x <;> cases y <;> simp_all [Letter.nonTerminal?]
  lexerRuleIds := List.Pairwise.filter _ List.pairwise_lt_range
  completed := nodup_eraseDups _

/-- Completing a frame adds the frames that it leads to, bare as yet, and puts
the completed frame in its place. -/
theorem complete_frames (d : FrameDraft) (g : Grammar) (id : FrameId) (f : Frame) :
    ∃ d₁ ids f', d.Extends d₁ ids ∧ (d.complete g id f).frames = d₁.frames.set id f' ∧ f'.rules = f.rules ∧
      f'.Arranged ∧ ∀ j ∈ ids, (∃ x, f'.target? x = some j) ∨ f'.prediction? = some j := by
  let d₀ : FrameDraft := { d with table := d.table.internAll (f.rules.filterMap DottedRule.advance?) }
  have hkeys : ((follow g f f.letters (d₀.predict g f).2).1.map Prod.fst).Nodup := by
    rw [map_fst_follow]
    exact nodup_eraseDups _
  have hext : d₀.Extends (follow g f f.letters (d₀.predict g f).2).2 _ :=
    (predict_extends d₀ g f).trans (follow_extends (fun _ hx => hx) _)
  refine ⟨_, _, done g f (d₀.predict g f).1 (follow g f f.letters (d₀.predict g f).2).1,
    ⟨hext.added, hext.mem_ids⟩, rfl, rfl, arranged_done hkeys, fun j hj => ?_⟩
  rcases List.mem_append.1 hj with hj | hj
  · exact .inr (Option.mem_toList.1 hj)
  · obtain ⟨⟨x, j⟩, hmem, rfl⟩ := List.mem_map.1 hj
    exact .inl ⟨x, (target?_done ..).trans (lookup_eq_some_of_mem hkeys hmem)⟩

theorem length_le_complete (d : FrameDraft) (g : Grammar) (id : FrameId) (f : Frame) :
    d.frames.length ≤ (d.complete g id f).frames.length := by
  obtain ⟨d₁, ids, f', ⟨⟨more, hmore, -⟩, -⟩, hframes, -⟩ := d.complete_frames g id f
  rw [hframes, List.length_set, hmore, List.length_append]
  omega

/-! ## Working through the line -/

/-- The frames in line are completed one after the other, and those found
meanwhile join the line, from `d` until the line is empty at `d'`. -/
inductive Works (g : Grammar) : List FrameId → FrameDraft → List FrameId → FrameDraft → Prop
  | finished {d : FrameDraft} : Works g [] d [] d
  | complete {id : FrameId} {line order : List FrameId} {d d' : FrameDraft} {f : Frame} :
      d.frames[id]? = some f →
      Works g (line ++ List.Ico d.frames.length (d.complete g id f).frames.length) (d.complete g id f) order d' →
      Works g (id :: line) d (id :: order) d'

theorem length_le_completeFrom {fuel id : Nat} (h : completeFrom g fuel id d = .ok d') :
    d.frames.length ≤ d'.frames.length := by
  induction fuel generalizing id d with
  | zero => cases h
  | succ fuel ih =>
    rw [completeFrom] at h
    split at h
    · cases h
      exact Nat.le_refl _
    · exact (d.length_le_complete g id _).trans (ih h)

/-- The frames are completed in the order of their places. -/
theorem completeFrom_works {fuel id : Nat} (h : completeFrom g fuel id d = .ok d') (hid : id ≤ d.frames.length) :
    Works g (List.Ico id d.frames.length) d (List.Ico id d'.frames.length) d' := by
  induction fuel generalizing id d with
  | zero => cases h
  | succ fuel ih =>
    have hle := length_le_completeFrom h
    rw [completeFrom] at h
    split at h
    · rename_i hnone
      cases h
      rw [List.Ico.eq_nil_of_le (List.getElem?_eq_none_iff.1 hnone)]
      exact .finished
    · rename_i f hf
      have hlt := (List.getElem?_eq_some_iff.1 hf).1
      have hgrows := d.length_le_complete g id f
      rw [List.Ico.eq_cons hlt, List.Ico.eq_cons (hlt.trans_le hle)]
      refine .complete hf ?_
      rw [List.Ico.append_consecutive hlt hgrows]
      exact ih h (by omega)

/-- The frames from the `n`th on are bare, and all can be reached from the first one. -/
structure Explored (d : FrameDraft) (n : Nat) : Prop where
  bare : ∀ i f, n ≤ i → d.frames[i]? = some f → f = .bare f.rules f.predicted
  rules_ne_nil : ∀ f ∈ d.frames, f.rules ≠ []
  arranged : ∀ f ∈ d.frames, f.Arranged
  reached : ∀ i < d.frames.length, Relation.ReflTransGen (FrameEdge d.frames) 0 i

/-- A bare frame leads nowhere. -/
theorem Explored.not_frameEdge {n i j : Nat} (h : d.Explored n) (hi : n ≤ i) : ¬ FrameEdge d.frames i j := by
  rintro ⟨f, hf, hj⟩
  rw [h.bare i f hi hf] at hj
  rcases hj with ⟨_ | _, hj⟩ | hj <;> cases hj

theorem Explored.complete {n : Nat} {f : Frame} (h : d.Explored n) (hf : d.frames[n]? = some f) :
    (d.complete g n f).Explored (n + 1) := by
  obtain ⟨d₁, ids, f', ⟨⟨more, hmore, hbare⟩, hids⟩, hframes, hrules, harr, hedge⟩ := d.complete_frames g n f
  have hn := (List.getElem?_eq_some_iff.1 hf).1
  have hlen : d.frames.length ≤ d₁.frames.length := by
    rw [hmore, List.length_append]
    omega
  have hold : ∀ i ≠ n, ∀ f₀, d.frames[i]? = some f₀ → (d₁.frames.set n f')[i]? = some f₀ := by
    intro i hi f₀ hf₀
    rw [List.getElem?_set_ne hi.symm, hmore, List.getElem?_append_left (List.getElem?_eq_some_iff.1 hf₀).1, hf₀]
  have hself : (d₁.frames.set n f')[n]? = some f' := List.getElem?_set_self (by omega)
  have hmem : ∀ f₀ ∈ d₁.frames.set n f', f₀ ∈ d.frames ∨ f₀ ∈ more ∨ f₀ = f' := by
    intro f₀ hf₀
    rcases List.mem_or_eq_of_mem_set hf₀ with hf₀ | hf₀
    · rw [hmore] at hf₀
      exact (List.mem_append.1 hf₀).imp_right .inl
    · exact .inr (.inr hf₀)
  constructor <;> rw [hframes]
  · intro i f₀ hi hf₀
    rw [List.getElem?_set_ne (by omega), hmore] at hf₀
    by_cases hlt : i < d.frames.length
    · exact h.bare i f₀ (by omega) (by rwa [List.getElem?_append_left hlt] at hf₀)
    · rw [List.getElem?_append_right (by omega)] at hf₀
      exact (hbare f₀ (List.mem_of_getElem? hf₀)).1
  · intro f₀ hf₀
    rcases hmem f₀ hf₀ with hf₀ | hf₀ | rfl
    · exact h.rules_ne_nil f₀ hf₀
    · exact (hbare f₀ hf₀).2
    · exact hrules ▸ h.rules_ne_nil f (List.mem_of_getElem? hf)
  · intro f₀ hf₀
    rcases hmem f₀ hf₀ with hf₀ | hf₀ | rfl
    · exact h.arranged f₀ hf₀
    · exact (hbare f₀ hf₀).1 ▸ Frame.arranged_bare _ _
    · exact harr
  · -- The completed frame led nowhere before, so no edge is lost.
    have hmono : ∀ i j, FrameEdge d.frames i j → FrameEdge (d₁.frames.set n f') i j := by
      rintro i j hij
      have hi : i ≠ n := fun hi => h.not_frameEdge (Nat.le_of_eq hi.symm) hij
      obtain ⟨f₀, hf₀, hj⟩ := hij
      exact ⟨f₀, hold i hi f₀ hf₀, hj⟩
    have hreach : ∀ i < d.frames.length, Relation.ReflTransGen (FrameEdge (d₁.frames.set n f')) 0 i :=
      fun i hi => Relation.ReflTransGen.mono hmono _ _ (h.reached i hi)
    intro i hi
    rw [List.length_set] at hi
    by_cases hlt : i < d.frames.length
    · exact hreach i hlt
    · exact (hreach n hn).tail ⟨f', hself, hedge i (hids i (by omega) hi)⟩

theorem Explored.completeFrom {fuel n : Nat} (h : d.Explored n) (hd : completeFrom g fuel n d = .ok d') :
    ∃ n', d'.Explored n' := by
  induction fuel generalizing n d with
  | zero => cases hd
  | succ fuel ih =>
    rw [FrameDraft.completeFrom] at hd
    split at hd
    · cases hd
      exact ⟨n, h⟩
    · rename_i f hf
      exact ih (h.complete hf) hd

theorem start_explored (g : Grammar) : (start g).Explored 0 := by
  have hne : g.skipClosure (g.initialRules g.start) ≠ [] := by
    obtain ⟨p, hp, hlhs⟩ := defines_iff.1 g.start_defined
    obtain ⟨i, hi⟩ := List.mem_iff_getElem?.1 hp
    exact List.ne_nil_of_mem (Grammar.subset_skipClosure _ (Grammar.mem_initialRules.2 ⟨i, p, hi, hlhs, rfl⟩))
  obtain ⟨⟨more, hmore, hbare⟩, -⟩ := intern_extends ⟨.empty, []⟩ false hne
  have hframes : (start g).frames = more := hmore
  refine ⟨fun i f _ hf => ?_, fun f hf => ?_, fun f hf => ?_, fun i hi => ?_⟩
  · exact (hbare f (hframes ▸ List.mem_of_getElem? hf)).1
  · exact (hbare f (hframes ▸ hf)).2
  · exact (hbare f (hframes ▸ hf)).1 ▸ Frame.arranged_bare _ _
  · rw [Nat.lt_one_iff.1 hi]

end FrameDraft

/-! ## Compiled grammars -/

/-- The graph without what is known of it beforehand. -/
def FrameGraph.draft (graph : FrameGraph) : FrameDraft := ⟨graph.table, graph.frames⟩

/-- Frames were completed in the order of their places until none was left in line. -/
theorem FrameGraph.ofGrammar_works (g : Grammar) :
    Succeeds (FrameGraph.ofGrammar g) fun graph => graph.grammar = g ∧ graph.startFrame = 0 ∧
      FrameDraft.Works g [0] (.start g) (List.range graph.frames.length) graph.draft ∧
      FrameDraft.Valid g graph.draft ∧ (∀ f ∈ graph.frames, f.Completed g graph.frames) ∧
      Leads graph.frames 0 (g.skipClosure (g.initialRules g.start)) false ∧ ∃ n, graph.draft.Explored n := by
  obtain ⟨hv, hstart⟩ := FrameDraft.start_spec g
  obtain ⟨d, hd, hvalid, hpre, hall⟩ :=
    FrameDraft.completeFrom_spec (g.frameBound + 1) hv (Nat.zero_le _) (by omega) (by simp)
  have hworks := FrameDraft.completeFrom_works hd (Nat.zero_le _)
  rw [List.Ico.zero_bot, List.Ico.zero_bot] at hworks
  refine .bind_ok hd (.pure ⟨rfl, rfl, hworks, hvalid, hall, hstart.mono hpre, ?_⟩)
  exact (FrameDraft.start_explored g).completeFrom hd

/-- Where the frames of a graph lead and how they differ. -/
structure FrameGraph.WellFormed (graph : FrameGraph) : Prop where
  /-- No frame is as it was found. -/
  not_bare : ∀ f ∈ graph.frames, ∀ rules predicted, f ≠ .bare rules predicted
  /-- Rules and purpose tell frames apart. -/
  distinct : ∀ (i j : FrameId) (f f' : Frame), graph.frames[i]? = some f → graph.frames[j]? = some f' →
    (∀ r, r ∈ f.rules ↔ r ∈ f'.rules) → f.predicted = f'.predicted → i = j
  start_lt : graph.startFrame < graph.frames.length
  tokenMove_lt : ∀ f ∈ graph.frames, ∀ t id, (t, id) ∈ f.tokenMoves → id < graph.frames.length
  reduction_lt : ∀ f ∈ graph.frames, ∀ A id, (A, id) ∈ f.reductions → id < graph.frames.length
  prediction_lt : ∀ f ∈ graph.frames, ∀ id, f.prediction? = some id → id < graph.frames.length
  reached : ∀ id < graph.frames.length, Relation.ReflTransGen (FrameEdge graph.frames) graph.startFrame id
  /-- What is predicted predicts nothing beside itself. -/
  closed : ∀ f ∈ graph.frames, f.predicted = true → f.prediction? = none
  predicted : ∀ f ∈ graph.frames, ∀ id, f.prediction? = some id →
    ∃ f', graph.frames[id]? = some f' ∧ f'.predicted = true

theorem Leads.lt {frames : List Frame} {id : FrameId} {rules : List DottedRule} {predicted : Bool}
    (h : Leads frames id rules predicted) : id < frames.length := by
  obtain ⟨f, hf, -⟩ := h
  exact (List.getElem?_eq_some_iff.1 hf).1

/-- A frame with rules expects something or completes something. -/
theorem Frame.Completed.ne_bare {g : Grammar} {frames : List Frame} {f : Frame} (h : f.Completed g frames)
    (hne : f.rules ≠ []) (rules : List DottedRule) (predicted : Bool) : f ≠ .bare rules predicted := by
  rintro rfl
  obtain ⟨r, hr⟩ := List.exists_mem_of_ne_nil _ hne
  cases hx : r.postDotLetter? with
  | none =>
    have hcomplete : r.isComplete = true := by simpa [DottedRule.postDotLetter?, DottedRule.postDot?_eq_none_iff] using hx
    have hmem := (h.mem_completed r.lhs).2 ⟨r, hr, hcomplete, rfl⟩
    cases hmem
  | some x => exact h.stays x (by cases x <;> rfl) r hr hx

/-- The rules of a frame stand in the order of their places in the table. -/
theorem FrameDraft.Valid.ascending {g : Grammar} {d : FrameDraft} (h : Valid g d) {f : Frame} (hf : f ∈ d.frames) :
    f.rules.Pairwise fun r r' => d.table.idOf r < d.table.idOf r' := by
  refine List.Pairwise.sublist (h.sublist f hf) (List.pairwise_iff_getElem.2 fun i j hi hj hij => ?_)
  rwa [RuleTable.idOf, RuleTable.idOf, h.nodup.idxOf_getElem i hi, h.nodup.idxOf_getElem j hj]

theorem FrameDraft.Valid.id_unique {g : Grammar} {d : FrameDraft} (h : Valid g d) {i j : FrameId} {f f' : Frame}
    (hf : d.frames[i]? = some f) (hf' : d.frames[j]? = some f') (hr : ∀ r, r ∈ f.rules ↔ r ∈ f'.rules)
    (hp : f.predicted = f'.predicted) : i = j := by
  have hmem := List.mem_of_getElem? hf
  have hmem' := List.mem_of_getElem? hf'
  have hrules : f.rules = f'.rules := by
    refine List.Perm.eq_of_pairwise (fun r r' _ _ hlt hlt' => absurd hlt (Nat.lt_asymm hlt')) (h.ascending hmem)
      (h.ascending hmem') ?_
    exact (List.perm_ext_iff_of_nodup (h.nodup.sublist (h.sublist f hmem)) (h.nodup.sublist (h.sublist f' hmem'))).2 hr
  have hlt := (List.getElem?_eq_some_iff.1 hf).1
  refine (List.getElem?_inj (by simpa using hlt) h.distinct).1 ?_
  simp only [List.getElem?_map, hf, hf', Option.map_some, Frame.head, hrules, hp]

/-- Compilation comes to an end with every frame that was found completed once, in
the order in which they were found, and leaves a well-formed graph. -/
theorem FrameGraph.compilation_wellFormed (g : Grammar) :
    ∃ graph, FrameGraph.ofGrammar g = .ok graph ∧ graph.grammar = g ∧
      FrameDraft.Works g [graph.startFrame] (.start g) (List.range graph.frames.length) graph.draft ∧
      graph.frames.length ≤ g.frameBound ∧ graph.WellFormed := by
  obtain ⟨graph, hgraph, hg, hzero, hworks, hvalid, hcompleted, hstart, n, hexplored⟩ := ofGrammar_works g
  refine ⟨graph, hgraph, hg, hzero ▸ hworks, hvalid.length_frames_le, ?_⟩
  have hlt : ∀ f ∈ graph.frames, ∀ x id, f.target? x = some id → id < graph.frames.length :=
    fun f hf x id hx => ((hcompleted f hf).leads x id hx).lt
  constructor
  · exact fun f hf => (hcompleted f hf).ne_bare (hexplored.rules_ne_nil f hf)
  · exact fun i j f f' hf hf' => hvalid.id_unique hf hf'
  · exact hzero ▸ hstart.lt
  · exact fun f hf t id ht => hlt f hf (.token t) id (lookup_eq_some_of_mem (hexplored.arranged f hf).tokenMoves ht)
  · exact fun f hf A id hA =>
      hlt f hf (.nonTerminal A) id (lookup_eq_some_of_mem (hexplored.arranged f hf).reductions hA)
  · exact fun f hf id hid => ((hcompleted f hf).predicts id hid).2.lt
  · exact hzero ▸ hexplored.reached
  · exact fun f hf hp => (hcompleted f hf).prediction?_eq_none hp
  · intro f hf id hid
    obtain ⟨f', hf', hp, -⟩ := ((hcompleted f hf).predicts id hid).2
    exact ⟨f', hf', hp⟩

end ChartParser
