import ChartParser.Proofs.Deduction.Choices
import ChartParser.Proofs.Frame.Tracking
/-!
# What is in a chart of frames

All that the moves of the graph place in a set is there (`Settled.mem_of_placed`), and
nothing else is. So two charts made of the same choices have the same frames in every
set (`Tracks.items_perm`).
-/
namespace ChartParser

variable {graph : FrameGraph} {input input' : List (List Token)} {run run' : FrameParse} {c : FrameChart}
  {x : FrameItem} {j n : Nat}

theorem FrameItem.Placed.location_le (h : x.Placed graph input j) : j ≤ input.length := by
  induction h with
  | start => exact Nat.zero_le _
  | predict _ _ _ ih => exact ih
  | scan _ _ ht => exact ht.lt_length
  | complete _ _ _ _ _ _ _ ih => exact ih

namespace FrameGraph

theorem Settled.mem_of_placed (h : Settled graph input c n) (hs : FrameSound graph input n c)
    (hx : x.Placed graph input j) (hj : j ≤ n) : x ∈ FrameChart.items c j := by
  induction hx with
  | start => exact h.start
  | predict _ hf hid ih => exact hs.predicted (ih hj) hf hid
  | scan _ hf ht hid ih => exact h.scanned _ (by omega) _ (ih (by omega)) _ _ _ hf ht hid
  | complete _ hlt hf hA _ hf' hid ih ihy =>
    have hpassed := h.closed _ hj _ (ih hj) hlt _ hf _ hA
    exact hpassed _ (ihy (by omega)) _ _ hf' hid

theorem Tracks.mem_items_iff (h : Tracks graph input run) :
    x ∈ FrameChart.items run.chart j ↔ x.Placed graph input j :=
  ⟨fun hx => (h.sound.sound hx).placed, fun hx => h.settled.mem_of_placed h.sound hx hx.location_le⟩

/-- Parses with the same choices have the same frames in each set. -/
theorem Tracks.items_perm (h : Tracks graph input run) (h' : Tracks graph input' run')
    (hin : SameChoices input input') (j : Nat) :
    (FrameChart.items run.chart j).Perm (FrameChart.items run'.chart j) := by
  rw [List.perm_ext_iff_of_nodup (h.sound.nodup j) (h'.sound.nodup j)]
  intro x
  rw [h.mem_items_iff, h'.mem_items_iff]
  exact ⟨fun hx => hx.congr fun _ _ => hin.offers, fun hx => hx.congr fun _ _ => hin.symm.offers⟩

end FrameGraph

end ChartParser
