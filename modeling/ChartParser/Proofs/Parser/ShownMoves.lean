import ChartParser.Proofs.Parser.Watched
/-!
# No move is lost or shown twice

While a set grows, the parser walks along it, and an item that it finds again is not
inserted again. The forest builder, however, is shown every move. Without memoized
paths, the moves of one offer are those that can be read off the chart afterwards, each
once: of the states that expect one of the tokens, of those that waited for a completion
that took input, and of the predictions that pass over a nullable non-terminal
(`moves_shown_once`). What a completion without input moves is left aside: how often that
is shown depends on the order in which the set grew.
-/
namespace ChartParser

variable {σ : Type}

/-- The move of the state over `crossed` into set `j`. -/
def State.move? (s : State) (j : Nat) (crossed : Crossing) : Option DotMove :=
  s.rule.advance?.map fun rule => { rule, origin := s.origin, location := j, parent := s.node, crossed }

/-- A completion in set `j` that took no input. -/
def Crossing.isEmptyCompletion (j : Nat) : Crossing → Bool
  | .completed _ origin _ => origin = j
  | _ => false

/-! ## The moves that the chart tells of -/

/-- The move of a state over `t` into set `j`, if the state expects `t`. -/
def State.tokenMoves (j : Nat) (t : Token) (s : State) : List (Option DotMove) :=
  if s.expects t.tokenType then [s.move? j (.token t)] else []

/-- The move of a state past a nullable non-terminal. -/
def State.emptyMoves (g : Grammar) (j : Nat) (s : State) : List (Option DotMove) :=
  match s.rule.postDotNonTerminal? with
  | none => []
  | some A => if g.isNullable A then [s.move? j (.empty A)] else []

/-- The moves of the states that waited for the completion of `d` in set `j`, if that
took input. -/
def Chart.completionMoves (c : Chart ItemSet) (j : Nat) (d : State) : List (Option DotMove) :=
  if d.origin < j then
    (c.waiting d.origin d.rule.lhs).map (·.move? j (.completed d.rule.lhs d.origin d.node))
  else []

/-! ## Moves between two parses -/

/-- From `run` to `run'` the builder is shown `moves`, in some order, besides what
completions without input move in set `j`. -/
def Parse.Shows (j : Nat) (run run' : Parse (σ × List DotMove)) (moves : List (Option DotMove)) : Prop :=
  ∃ shown, run'.forest.2 = run.forest.2 ++ shown ∧
    ((shown.filter fun m => !m.crossed.isEmptyCompletion j).map some).Perm moves

namespace Parse.Shows

variable {j : Nat} {run run' run'' : Parse (σ × List DotMove)} {moves moves' : List (Option DotMove)}

theorem of_forest_eq (h : run'.forest = run.forest) : run.Shows j run' [] := ⟨[], by simp [h], by simp⟩

theorem trans (h : run.Shows j run' moves) (h' : run'.Shows j run'' moves') : run.Shows j run'' (moves ++ moves') := by
  obtain ⟨shown, heq, hperm⟩ := h
  obtain ⟨shown', heq', hperm'⟩ := h'
  refine ⟨shown ++ shown', by rw [heq', heq, List.append_assoc], ?_⟩
  rw [List.filter_append, List.map_append]
  exact hperm.append hperm'

theorem perm (h : run.Shows j run' moves) (hp : moves.Perm moves') : run.Shows j run' moves' := by
  obtain ⟨shown, heq, hperm⟩ := h
  exact ⟨shown, heq, hperm.trans hp⟩

/-- A loop shows what its steps show, one after the other. -/
theorem foldlM {α : Type} {f : Parse (σ × List DotMove) → α → Except Fault (Parse (σ × List DotMove))}
    {I : Parse (σ × List DotMove) → Prop} {moves : α → List (Option DotMove)} {l : List α}
    (hf : ∀ a ∈ l, ∀ run run', I run → f run a = .ok run' → I run' ∧ run.Shows j run' (moves a))
    (hI : I run) (h : l.foldlM f run = .ok run') : I run' ∧ run.Shows j run' (l.flatMap moves) := by
  induction l generalizing run with
  | nil =>
    cases h
    exact ⟨hI, of_forest_eq rfl⟩
  | cons a l ih =>
    rw [List.foldlM_cons] at h
    obtain ⟨run₁, hstep, hrest⟩ := bind_eq_ok_iff.1 h
    obtain ⟨hI₁, hshows⟩ := hf a (by simp) _ _ hI hstep
    obtain ⟨hI', hshows'⟩ := ih (fun a ha => hf a (by simp [ha])) hI₁ hrest
    exact ⟨hI', hshows.trans hshows'⟩

end Parse.Shows

namespace Parser

variable {g : Grammar} {leo : Bool} {b : ForestBuilder σ} {input : List (List Token)} {j k : Nat}
  {run run' : Parse (σ × List DotMove)} {op : Operation} {s : State} {x : Crossing}

theorem advance_shows (h : advance ⟨g, leo, b.watched⟩ run op j s x = .ok run') (hs : s.rule.postDot? ≠ none) :
    run.Shows j run' (if x.isEmptyCompletion j then [] else [s.move? j x]) := by
  obtain ⟨y, hy⟩ := Option.ne_none_iff_exists'.1 hs
  obtain ⟨r, hr⟩ := DottedRule.exists_advance hy
  simp only [advance, hr] at h
  refine ⟨[⟨r, s.origin, j, s.node, x⟩], by rw [(attach_keeps h).2]; rfl, ?_⟩
  cases hx : x.isEmptyCompletion j <;> simp [hx, State.move?, hr]

/-- A move changes no other set. -/
theorem get?_of_advance {p : Parser σ} {run run' : Parse σ} (h : p.advance run op j s x = .ok run')
    (hk : k < run.chart.size) (hkj : k ≠ j) : run'.chart.get? k = run.chart.get? k := by
  unfold advance at h
  split at h
  · cases h
    rfl
  · obtain ⟨⟨new, run₁⟩, hins, heq⟩ := bind_eq_ok_iff.1 h
    cases heq
    rw [Parse.chart_of_insert hins]
    exact Chart.get?_update_of_ne hk hkj

/-! ## Prediction and completion -/

theorem begin_shows {rules : List DottedRule} (h : run.begin op j rules = .ok run') : run.Shows k run' [] := by
  have hbegin : ∀ r ∈ rules, ∀ run₁ run₂ : Parse (σ × List DotMove), True →
      Parse.beginRule op j run₁ r = .ok run₂ → True ∧ run₁.Shows k run₂ [] := by
    intro r _ run₁ run₂ _ hr
    obtain ⟨⟨new, run₃⟩, hins, heq⟩ := bind_eq_ok_iff.1 hr
    cases heq
    exact ⟨trivial, .of_forest_eq (Parse.insert_keeps hins).2⟩
  have hshows := (Parse.Shows.foldlM hbegin trivial h).2
  rwa [List.flatMap_eq_nil_iff.2 fun _ _ => rfl] at hshows

theorem predict_shows (h : predict ⟨g, leo, b.watched⟩ run j s = .ok run') : run.Shows j run' (s.emptyMoves g j) := by
  unfold predict at h
  unfold State.emptyMoves
  cases hA : s.rule.postDotNonTerminal? with
  | none =>
    simp only [hA] at h
    cases h
    exact .of_forest_eq rfl
  | some A =>
    simp only [hA] at h
    obtain ⟨run₁, hbegin, h⟩ := bind_eq_ok_iff.1 h
    dsimp only
    split
    · rename_i hn
      rw [if_pos hn] at h
      have hpost : s.rule.postDot? ≠ none := by simp [DottedRule.postDotNonTerminal?_eq_some_iff.1 hA]
      have hmove := advance_shows h hpost
      exact (begin_shows hbegin).trans hmove
    · rename_i hn
      rw [if_neg hn] at h
      cases h
      exact begin_shows hbegin

/-- The loop over the states of an earlier set that wait for `A` shows the move of each,
from the `i`th on. -/
theorem advanceWaiting_shows {A : NonTerminal} {fuel i : Nat} (hx : x.isEmptyCompletion j = false → k ≠ j)
    (h : advanceWaiting ⟨g, leo, b.watched⟩ A k j x fuel i run = .ok run') :
    run.Shows j run' (if x.isEmptyCompletion j then [] else ((run.chart.waiting k A).drop i).map (·.move? j x)) := by
  induction fuel generalizing i run with
  | zero => cases h
  | succ fuel ih =>
    rw [advanceWaiting] at h
    obtain ⟨set, hget, h⟩ := bind_eq_ok_iff.1 h
    have hset := Chart.get_eq_ok_iff.1 hget
    rw [Chart.waiting_eq hset]
    cases hs : (set.waiting A)[i]? with
    | none =>
      simp only [hs] at h
      cases h
      rw [List.drop_of_length_le (List.getElem?_eq_none_iff.1 hs), List.map_nil, ite_self]
      exact .of_forest_eq rfl
    | some s =>
      simp only [hs] at h
      obtain ⟨run₁, hmove, h⟩ := bind_eq_ok_iff.1 h
      have hwaits := (ItemSet.mem_waiting.1 (List.mem_of_getElem? hs)).2
      have hshows := (advance_shows hmove (by simp [hwaits])).trans (ih h)
      cases hempty : x.isEmptyCompletion j with
      | true => simpa [hempty] using hshows
      | false =>
        have hget₁ : run₁.chart.get? k = some set := by
          rw [get?_of_advance hmove (List.getElem?_eq_some_iff.1 hset).1 (hx hempty), hset]
        rw [Chart.waiting_eq hget₁] at hshows
        obtain ⟨hi, rfl⟩ := List.getElem?_eq_some_iff.1 hs
        simp only [hempty, Bool.false_eq_true, if_false] at hshows ⊢
        rw [List.drop_eq_getElem_cons hi, List.map_cons]
        exact hshows

/-- A completion shows the moves of the states that waited for it. -/
theorem complete_shows (h : complete ⟨g, false, b.watched⟩ run j s = .ok run') (hs : s.origin ≤ j) :
    run.Shows j run' (run.chart.completionMoves j s) := by
  have hstep : completeStepwise ⟨g, false, b.watched⟩ run j s = .ok run' := h
  have hshows := advanceWaiting_shows (by simp [Crossing.isEmptyCompletion]) hstep
  unfold Chart.completionMoves
  by_cases hlt : s.origin < j
  · simpa [Crossing.isEmptyCompletion, hlt, Nat.ne_of_lt hlt] using hshows
  · have heq : s.origin = j := by omega
    simpa [Crossing.isEmptyCompletion, heq] using hshows

/-! ## The closure of a set -/

/-- What waited in earlier sets does not change. -/
theorem completionMoves_of_grows {c c' : Chart ItemSet} (hg : c.Grows j c') (d : State) :
    c'.completionMoves j d = c.completionMoves j d := by
  unfold Chart.completionMoves
  split
  · rename_i hlt
    rw [hg.waiting_eq hlt]
  · rfl

/-- Closing a set shows the moves of all its completions from the `c`th on and of all its
predictions from the `q`th on, those that are still to come included. -/
theorem reduceFrom_shows {fuel c q : Nat} (hs : Sound g input j run.chart)
    (h : reduceFrom ⟨g, false, b.watched⟩ j fuel c q run = .ok run') :
    run.chart.Grows j run'.chart ∧ run.Shows j run'
      (((run'.chart.lane j .completions).drop c).flatMap (run'.chart.completionMoves j) ++
        ((run'.chart.lane j .predictions).drop q).flatMap (State.emptyMoves g j)) := by
  induction fuel generalizing c q run with
  | zero => cases h
  | succ fuel ih =>
    rw [reduceFrom] at h
    obtain ⟨set, hget, h⟩ := bind_eq_ok_iff.1 h
    have hcompletions : set.completions.toList = run.chart.lane j .completions := Chart.queue_eq_lane hget .completions
    have hpredictions : set.predictions.toList = run.chart.lane j .predictions := Chart.queue_eq_lane hget .predictions
    simp only [Queue.get?, hcompletions, hpredictions] at h
    split at h
    -- The next completion.
    · rename_i d hd
      obtain ⟨run₁, hcomplete, h⟩ := bind_eq_ok_iff.1 h
      have hmem := List.mem_of_getElem? hd
      have he := ((complete_spec hs hmem).of_ok hcomplete).1
      obtain ⟨hg, hrest⟩ := ih he.sound h
      have hgrows := he.grows.trans hg
      refine ⟨hgrows, ?_⟩
      have hshown := complete_shows hcomplete (hs.origin_le hmem)
      rw [← completionMoves_of_grows hgrows] at hshown
      rw [drop_eq_cons_of_getElem? (hgrows.lane_le j .completions) hd, List.flatMap_cons, List.append_assoc]
      exact hshown.trans hrest
    -- No completion is left; the next prediction may bring new ones.
    · rename_i s _ hq
      obtain ⟨run₁, hpredict, h⟩ := bind_eq_ok_iff.1 h
      have he := ((predict_spec hs (List.mem_of_getElem? hq)).of_ok hpredict).1
      obtain ⟨hg, hrest⟩ := ih he.sound h
      have hgrows := he.grows.trans hg
      refine ⟨hgrows, ?_⟩
      rw [drop_eq_cons_of_getElem? (hgrows.lane_le j .predictions) hq, List.flatMap_cons]
      exact ((predict_shows hpredict).trans hrest).perm (List.perm_append_comm_assoc ..)
    · rename_i hc hq
      cases h
      refine ⟨.refl j _, ?_⟩
      rw [List.drop_of_length_le (List.getElem?_eq_none_iff.1 hc), List.drop_of_length_le (List.getElem?_eq_none_iff.1 hq)]
      exact .of_forest_eq rfl

theorem reduce_shows (h : reduce ⟨g, false, b.watched⟩ run j = .ok run') (hs : Sound g input j run.chart) :
    run.Shows j run' ((run'.chart.lane j .completions).flatMap (run'.chart.completionMoves j) ++
      (run'.chart.lane j .predictions).flatMap (State.emptyMoves g j)) :=
  (reduceFrom_shows hs h).2

/-! ## Taking tokens -/

theorem scan_shows {t : Token} (h : scan ⟨g, leo, b.watched⟩ k run t = .ok run') :
    run.Shows (k + 1) run' ((run.chart.lane k .scans).flatMap (State.tokenMoves (k + 1) t)) := by
  obtain ⟨set, hget, h⟩ := bind_eq_ok_iff.1 h
  have hscans : set.scans.toList = run.chart.lane k .scans := Chart.queue_eq_lane hget .scans
  rw [hscans] at h
  have hstep : ∀ s ∈ run.chart.lane k .scans, ∀ run₁ run₂ : Parse (σ × List DotMove), True →
      scanState ⟨g, leo, b.watched⟩ k t run₁ s = .ok run₂ → True ∧ run₁.Shows (k + 1) run₂ (s.tokenMoves (k + 1) t) := by
    intro s _ run₁ run₂ _ hs
    refine ⟨trivial, ?_⟩
    unfold scanState at hs
    unfold State.tokenMoves
    split
    · rename_i hx
      rw [if_pos hx] at hs
      obtain ⟨l, hl, -⟩ := State.expects_iff.1 hx
      exact advance_shows hs (by simp [hl])
    · rename_i hx
      rw [if_neg hx] at hs
      cases hs
      exact .of_forest_eq rfl
  exact (Parse.Shows.foldlM hstep trivial h).2

/-- Every token moves each state of the last set that expects it. -/
theorem Tracks.scan_all_shows {tokens : List Token} (h : Tracks ⟨g, leo, b.watched⟩ input run)
    (hscan : tokens.foldlM (scan ⟨g, leo, b.watched⟩ run.location) run = .ok run') :
    run.Shows (run.location + 1) run'
      (tokens.flatMap fun t => (run.chart.lane run.location .scans).flatMap (State.tokenMoves (run.location + 1) t)) := by
  rw [h.location_eq] at hscan ⊢
  have hsize := h.size_eq
  have hsound : Sound g (input ++ [tokens]) (input.length + 1) run.chart := h.sound.extend_input (by omega) (by omega)
  have hstep : ∀ t ∈ tokens, ∀ run₁ run₂ : Parse (σ × List DotMove),
      Extends ⟨g, leo, b.watched⟩ (input ++ [tokens]) (input.length + 1) run run₁ →
      scan ⟨g, leo, b.watched⟩ input.length run₁ t = .ok run₂ →
      Extends ⟨g, leo, b.watched⟩ (input ++ [tokens]) (input.length + 1) run run₂ ∧ run₁.Shows (input.length + 1) run₂
        ((run.chart.lane input.length .scans).flatMap (State.tokenMoves (input.length + 1) t)) := by
    intro t ht run₁ run₂ he hrun
    refine ⟨he.trans ((scan_spec he.sound (he.lt_size (by omega)) ht).of_ok hrun).1, ?_⟩
    rw [← he.grows.lane_eq _ _ (by omega) (by simp)]
    exact scan_shows hrun
  exact (Parse.Shows.foldlM hstep (.refl hsound) hscan).2

theorem Tracks.offer_shows {tokens : List Token} {next : Parse (σ × List DotMove)}
    (h : Tracks ⟨g, false, b.watched⟩ input run) (hoffer : offer ⟨g, false, b.watched⟩ run tokens = .ok (true, next)) :
    next.location = run.location + 1 ∧ run.Shows next.location next
      ((tokens.flatMap fun t => (run.chart.lane run.location .scans).flatMap (State.tokenMoves next.location t)) ++
        ((next.chart.lane next.location .completions).flatMap (next.chart.completionMoves next.location) ++
          (next.chart.lane next.location .predictions).flatMap (State.emptyMoves g next.location))) := by
  obtain ⟨run₁, hscan, hoffer⟩ := bind_eq_ok_iff.1 hoffer
  dsimp only at hoffer
  split at hoffer
  · cases hoffer
  · rename_i hsize
    obtain ⟨run₂, hreduce, hoffer⟩ := bind_eq_ok_iff.1 hoffer
    obtain ⟨set, -, hoffer⟩ := bind_eq_ok_iff.1 hoffer
    cases hoffer
    have he := ((scan_all_spec h).of_ok hscan).1
    have hlocation : run₁.location + 1 = input.length + 1 := by rw [he.location_eq, h.location_eq]
    rw [hlocation] at hreduce hsize
    have he₂ := ((reduce_spec { run₁ with location := input.length + 1 } he.sound (Nat.lt_of_not_le hsize)).of_ok hreduce).1
    have hnext : run₂.location = input.length + 1 := he₂.location_eq
    have hscanned := h.scan_all_shows hscan
    have hreduced := reduce_shows hreduce he.sound
    rw [h.location_eq] at hscanned ⊢
    rw [hnext]
    exact ⟨rfl, hscanned.trans hreduced⟩

/-- After every session of a parser that does not memoize paths, with every builder: when an
offer is taken, the moves that the builder is shown are, in some order, one for each token
offered and each state that expects it, one for each completion in the new set that took
input and each state that waited for it, and one for each prediction in the new set of a
nullable non-terminal, besides those that completions without input lead to. -/
theorem moves_shown_once (g : Grammar) (builder : ForestBuilder σ) (forest : σ) (calls : List Call) :
    ∃ answers run,
      (do Recognizer.performAll (⟨g, false, builder.watched⟩ : Parser _)
            (← Parser.start ⟨g, false, builder.watched⟩ (forest, [])) calls) = .ok (answers, run) ∧
      ∀ tokens, ∃ taken next, Parser.offer ⟨g, false, builder.watched⟩ run tokens = .ok (taken, next) ∧
        (taken = true → next.location = run.location + 1 ∧ ∃ shown, next.forest.2 = run.forest.2 ++ shown ∧
          ((shown.filter fun m => !m.crossed.isEmptyCompletion next.location).map some).Perm
            ((tokens.flatMap fun t => (run.chart.lane run.location .scans).flatMap (State.tokenMoves next.location t)) ++
              ((next.chart.lane next.location .completions).flatMap (next.chart.completionMoves next.location) ++
                (next.chart.lane next.location .predictions).flatMap (State.emptyMoves g next.location)))) := by
  obtain ⟨⟨answers, run⟩, hrun, input, h⟩ := session_spec ⟨g, false, builder.watched⟩ (forest, []) calls
  refine ⟨answers, run, hrun, fun tokens => ?_⟩
  obtain ⟨⟨taken, next⟩, hoffer, -⟩ := (follows _).offer_spec h tokens
  refine ⟨taken, next, hoffer, fun htaken => ?_⟩
  subst htaken
  exact h.offer_shows hoffer

end Parser

end ChartParser
