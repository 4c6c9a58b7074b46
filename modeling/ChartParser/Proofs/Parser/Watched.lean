import ChartParser.Proofs.Parser.Link
import ChartParser.Proofs.Parser.Tracking
/-!
# Watching a forest builder

A watched builder does what it did before and keeps a list of the moves it was
shown, or a log of the moves with its answers. Watching changes nothing in a parse
(`ForestBuilder.Watches.performAll`), and every move on the list was warranted by the
chart (`Steps.exists_moves`).
-/
namespace ChartParser

variable {σ τ : Type}

/-- The builder, with a list of the moves it was shown. -/
def ForestBuilder.watched (b : ForestBuilder σ) : ForestBuilder (σ × List DotMove) where
  attach m s := ((b.attach m s.1).1, ((b.attach m s.1).2, s.2 ++ [m]))

/-- Moves that a builder was shown, each with its answer, in order. -/
abbrev ForestLog := List (DotMove × Option ForestNode)

/-- The builder, with a log of what it was shown and what it answered. -/
def ForestBuilder.logged (b : ForestBuilder σ) : ForestBuilder (σ × ForestLog) where
  attach m s := ((b.attach m s.1).1, ((b.attach m s.1).2, s.2 ++ [(m, (b.attach m s.1).1)]))

/-! ## Watching changes nothing -/

/-- `b'` answers as `b` does; what it keeps besides makes no difference. -/
def ForestBuilder.Watches (b' : ForestBuilder (σ × τ)) (b : ForestBuilder σ) : Prop :=
  ∀ m s, (b'.attach m s).1 = (b.attach m s.1).1 ∧ (b'.attach m s).2.1 = (b.attach m s.1).2

/-- All is equal but for what is kept besides. -/
def Link.watching (σ τ : Type) : Link (σ × τ) σ := ⟨Eq, Eq, fun s s' => s.1 = s', Eq, Eq, Eq⟩

namespace ForestBuilder.Watches

variable {b' : ForestBuilder (σ × τ)} {b : ForestBuilder σ}

theorem kept (h : b'.Watches b) (g : Grammar) : (Link.watching σ τ).Kept g b' b where
  none := rfl
  tokenType_eq := congrArg Token.tokenType
  attach {m _ s _} hm hs := by
    cases hm.eq_of_node id id
    cases hs
    exact h m s
  intern r := congrArg (RuleTable.intern · r)
  collect := Expectations.interchangeable_eq g
  push entry := congrArg (Array.push · entry)

/-- A session with a watched builder is the session with the builder itself. -/
theorem performAll (h : b'.Watches b) (g : Grammar) (leo : Bool) (forest : σ × τ) (calls : List Call) :
    InStep (fun x y => x.1 = y.1 ∧ y.2 = { x.2 with forest := x.2.forest.1 })
      (do Recognizer.performAll (⟨g, leo, b'⟩ : Parser _) (← Parser.start ⟨g, leo, b'⟩ forest) calls)
      (do Recognizer.performAll (⟨g, leo, b⟩ : Parser σ) (← Parser.start ⟨g, leo, b⟩ forest.1) calls) := by
  have hcalls : List.Forall₂ (Link.watching σ τ).Calls calls calls :=
    List.forall₂_same.2 fun call _ => .refl (fun _ => rfl) call
  have hstart : InStep (Link.watching σ τ).Parses (Parser.start ⟨g, leo, b'⟩ forest)
      (Parser.start ⟨g, leo, b⟩ forest.1) := Link.startOver (h.kept g) rfl rfl rfl rfl
  refine hstart.bind fun run run' hlink => ?_
  refine (hlink.performAll (h.kept g) hcalls).mono fun x y ⟨hans, hlink⟩ => ⟨hans, ?_⟩
  rw [Parse.mk.injEq]
  exact ⟨hlink.table.symm, (hlink.chart.eq_of_node id).symm, hlink.location_eq.symm, hlink.forest.symm,
    hlink.expectations.symm, hlink.memoized_eq.symm, hlink.journal.symm⟩

end ForestBuilder.Watches

theorem ForestBuilder.logged_watches (b : ForestBuilder σ) : b.logged.Watches b := fun _ _ => ⟨rfl, rfl⟩

/-! ## The moves of a run of steps -/

/-- The chart still has the states for all moves that were shown on the way to it. -/
theorem Steps.exists_moves {g : Grammar} {leo : Bool} {b : ForestBuilder σ} {input : List (List Token)} {j : Nat}
    {run run' : Parse (σ × List DotMove)} (h : Steps ⟨g, leo, b.watched⟩ input j run run')
    (hs : Sound g input j run.chart) :
    ∃ moves, run'.forest.2 = run.forest.2 ++ moves ∧ ∀ m ∈ moves, Warranted ⟨g, leo, b.watched⟩ input run'.chart j m := by
  induction h with
  | refl => exact ⟨[], by simp, by simp⟩
  | tail hsteps hstep ih =>
    obtain ⟨moves, hmoves, hall⟩ := ih
    have hg := (hstep.keeps (Steps.keeps hsteps hs).1).2
    rcases hstep.forest_cases with hforest | ⟨m, hm, hforest⟩
    · exact ⟨moves, by rw [hforest, hmoves], fun m' hm' => (hall m' hm').grows hg⟩
    · refine ⟨moves ++ [m], by rw [hforest, ← List.append_assoc, ← hmoves]; rfl, fun m' hm' => ?_⟩
      rcases List.mem_append.1 hm' with hm' | hm'
      · exact (hall m' hm').grows hg
      · rw [List.mem_singleton.1 hm']
        exact hm.grows hg

end ChartParser
