import ChartParser.Frame.Run
import ChartParser.Proofs.Chart.Replay
import ChartParser.Proofs.Journal
import ChartParser.Proofs.Session
/-!
# The journal of a parse with frames

The journal has the frames that built the chart, in their order (`FrameParse.Told`): the
frame that a parse starts with, those that moves lead to, and those that are predicted
when they come in.
-/
namespace ChartParser

variable {graph : FrameGraph} {run run' : FrameParse} {op : Operation} {k : Nat}

theorem FrameParse.insert_cases {x : FrameItem} {new : Bool} (h : run.insert op k x = .ok (new, run')) :
    (new = false ∧ run' = run) ∨ (new = true ∧ ∃ chart, FrameChart.insert run.chart k x = (.ok true, chart) ∧
      run' = { run with chart, journal := run.journal.push (.inserted op k x) }) := by
  unfold insert at h
  split at h
  · cases h
  · rename_i chart hins
    cases h
    rw [FrameChart.insert_of_refused hins]
    exact .inl ⟨rfl, rfl⟩
  · rename_i chart hins
    cases h
    exact .inr ⟨rfl, chart, hins, rfl⟩

/-- The chart was built from what is in the journal since the parse was last started. -/
def FrameParse.Told (run : FrameParse) : Prop :=
  Chart.Builds FrameChart.insert (Journal.insertions run.journal) run.chart

namespace FrameParse.Told

theorem push {entry : LogEntry FrameItem} (ht : run.Told) (h : entry.isRestart = false) (hnone : entry.insertion? = none) :
    Told { run with journal := run.journal.push entry } := by
  unfold Told at ht ⊢
  rwa [Journal.insertions_push run.journal h hnone]

theorem insert (ht : run.Told) {x : FrameItem} {new : Bool} (h : run.insert op k x = .ok (new, run')) : run'.Told := by
  obtain ⟨-, rfl⟩ | ⟨-, chart, hins, rfl⟩ := insert_cases h
  · exact ht
  · unfold Told
    rw [Journal.insertions_push_inserted]
    exact Chart.Builds.snoc ht hins

theorem totalStates_eq (ht : run.Told) :
    FrameChart.totalStates run.chart = (Journal.insertions run.journal).length :=
  Chart.Builds.total_eq (fun hins => FrameChart.totalStates_of_insert hins) ht

end FrameParse.Told

namespace FrameGraph

open FrameParse (Told)

theorem insert_told {x : FrameItem} (ht : run.Told) (h : graph.insert run op k x = .ok run') : run'.Told := by
  obtain ⟨⟨new, run₁⟩, hins, h⟩ := bind_eq_ok_iff.1 h
  have ht₁ := ht.insert hins
  cases new with
  | false =>
    cases h
    exact ht₁
  | true =>
    obtain ⟨f, -, h⟩ := bind_eq_ok_iff.1 h
    split at h
    · cases h
      exact ht₁
    · obtain ⟨⟨new, run₂⟩, hpredicted, h⟩ := bind_eq_ok_iff.1 h
      cases h
      exact ht₁.insert hpredicted

theorem reduceItem_told {x : FrameItem} (ht : run.Told) (h : graph.reduceItem run k x = .ok run') : run'.Told := by
  unfold reduceItem at h
  split at h
  · cases h
    exact ht
  · obtain ⟨f, -, h⟩ := bind_eq_ok_iff.1 h
    refine foldlM_keeps (P := Told) (fun {run₁ A run₂} hsymbol ht₁ => ?_) h ht
    obtain ⟨set, -, hsymbol⟩ := bind_eq_ok_iff.1 hsymbol
    refine foldlM_keeps (P := Told) (fun {run₃ y run₄} hparent ht₃ => ?_) hsymbol ht₁
    obtain ⟨f', -, hparent⟩ := bind_eq_ok_iff.1 hparent
    split at hparent
    · cases hparent
      exact ht₃
    · exact insert_told ht₃ hparent

theorem reduceFrom_told {fuel i : Nat} (ht : run.Told) (h : graph.reduceFrom k fuel i run = .ok run') : run'.Told := by
  induction fuel generalizing i run with
  | zero => cases h
  | succ fuel ih =>
    obtain ⟨set, -, h⟩ := bind_eq_ok_iff.1 h
    split at h
    · cases h
      exact ht
    · obtain ⟨run₁, hitem, h⟩ := bind_eq_ok_iff.1 h
      exact ih (reduceItem_told ht hitem) h

theorem startOver_told (h : graph.startOver run = .ok run') (hlatest : Journal.latest run.journal = []) : run'.Told := by
  obtain ⟨run₁, hins, h⟩ := bind_eq_ok_iff.1 h
  have hempty : Told { run with chart := .empty, location := 0 } := by
    unfold Told
    rw [Journal.insertions, hlatest]
    exact .empty
  exact reduceFrom_told (insert_told hempty hins) h

theorem scan_told {t : Token} (ht : run.Told) (h : graph.scan k run t = .ok run') : run'.Told := by
  obtain ⟨set, -, h⟩ := bind_eq_ok_iff.1 h
  refine foldlM_keeps (P := Told) (fun {run₁ x run₂} hitem ht₁ => ?_) h ht
  obtain ⟨f, -, hitem⟩ := bind_eq_ok_iff.1 hitem
  split at hitem
  · cases hitem
    exact ht₁
  · exact insert_told ht₁ hitem

theorem offer_told {tokens : List Token} {taken : Bool} (ht : run.Told)
    (h : graph.offer run tokens = .ok (taken, run')) : run'.Told := by
  obtain ⟨run₁, hscan, h⟩ := bind_eq_ok_iff.1 h
  have ht₁ : run₁.Told := foldlM_keeps (fun hs ht => scan_told ht hs) hscan ht
  dsimp only at h
  split at h
  · cases h
    exact ht₁.push rfl rfl
  · obtain ⟨run₂, hreduce, h⟩ := bind_eq_ok_iff.1 h
    obtain ⟨set, -, h⟩ := bind_eq_ok_iff.1 h
    cases h
    have hlocation : Told { run₁ with location := run₁.location + 1 } := ht₁
    have ht₂ : run₂.Told := reduceFrom_told hlocation hreduce
    exact ht₂.push rfl rfl

theorem perform_told {call : Call} {answer : Answer} (ht : run.Told)
    (h : Recognizer.perform graph run call = .ok (answer, run')) : run'.Told := by
  cases call with
  | offer tokens =>
    obtain ⟨⟨taken, run₁⟩, hoffer, h⟩ := bind_eq_ok_iff.1 h
    cases h
    exact offer_told ht hoffer
  | expected =>
    obtain ⟨⟨rules, run₁⟩, hexpected, h⟩ := bind_eq_ok_iff.1 h
    obtain ⟨frames, -, hexpected⟩ := bind_eq_ok_iff.1 hexpected
    obtain ⟨x, -, hexpected⟩ := bind_eq_ok_iff.1 hexpected
    cases h
    cases hexpected
    exact ht
  | restart =>
    obtain ⟨run₁, hrestart, h⟩ := bind_eq_ok_iff.1 h
    cases h
    exact startOver_told hrestart (Journal.latest_push_restarted _ _)

theorem session_told {calls : List Call} {answers : List Answer}
    (h : (do Recognizer.performAll graph (← graph.start) calls) = .ok (answers, run)) : run.Told := by
  obtain ⟨start, hstart, h⟩ := bind_eq_ok_iff.1 h
  exact Recognizer.performAll_keeps perform_told h (startOver_told hstart rfl)

end FrameGraph

end ChartParser
