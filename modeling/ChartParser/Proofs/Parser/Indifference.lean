import ChartParser.Forest.Recorder
import ChartParser.Proofs.Parser.Link
import ChartParser.Proofs.Parser.PlainChart
/-!
# What recognition does not look at

Forest nodes ride in the states of a chart, and values and positions in the tokens,
but no decision depends on them. Two parses that agree in the types of their tokens
agree in all answers and, once the nodes are erased, in their charts, whatever
their forest builders do (`recognition_sees_types_only`).
-/
namespace ChartParser

/-! ## Charts without their nodes -/

def State.bare (s : State) : State := { s with node := none }

def Queue.bare (q : Queue State) : Queue State := ⟨q.toList.map State.bare⟩

def ItemSet.bare (set : ItemSet) : ItemSet where
  location := set.location
  predictions := set.predictions.bare
  scans := set.scans.bare
  completions := set.completions.bare
  transitions := set.transitions.bare

/-- The chart with its sets, queues and states in place, but no nodes. -/
def Chart.bare (c : Chart ItemSet) : Chart ItemSet := ⟨c.sets.map ItemSet.bare⟩

theorem State.bare_eq_iff {s s' : State} : s.bare = s'.bare ↔ s.toItem = s'.toItem := by
  simp [bare, State.mk.injEq]

/-- A chart is written without its nodes anyway. -/
theorem Chart.render_bare (c : Chart ItemSet) : c.bare.render = c.render := by
  have hset : ∀ set : ItemSet, set.bare.render = set.render := by
    intro set
    have hitem : ∀ s : State, s.bare.toItem = s.toItem := fun _ => rfl
    simp [ItemSet.render, ItemSet.states, ItemSet.bare, Queue.bare, hitem, Function.comp_def]
  simp [render, bare, Function.comp_def, hset]

variable {σ τ : Type}

namespace Link

variable {L : Link σ τ}

/-- Linked charts differ in their nodes at most. -/
theorem Charts.bare_eq {c c' : Chart ItemSet} (h : L.Charts c c') : c.bare = c'.bare := by
  have hqueue : ∀ {q q' : Queue State}, List.Forall₂ L.States q.toList q'.toList → q.bare = q'.bare := by
    intro q q' hq
    rw [Queue.bare, Queue.bare, Queue.mk.injEq, ← List.forall₂_eq_eq_eq, List.forall₂_map_left_iff,
      List.forall₂_map_right_iff]
    exact hq.imp fun s s' hs => State.bare_eq_iff.2 hs.item_eq
  rw [Chart.bare, Chart.bare, Chart.mk.injEq, ← List.forall₂_eq_eq_eq, List.forall₂_map_left_iff,
    List.forall₂_map_right_iff]
  refine List.Forall₂.imp (fun set set' hset => ?_) h
  rw [ItemSet.bare, ItemSet.bare, ItemSet.mk.injEq]
  exact ⟨hset.location_eq, hqueue (hset.queue .predictions), hqueue (hset.queue .scans),
    hqueue (hset.queue .completions), hqueue (hset.queue .transitions)⟩

section Answers

variable {g : Grammar} {leo : Bool} {b : ForestBuilder σ} {b' : ForestBuilder τ} {run : Parse σ} {run' : Parse τ}

theorem Parses.isAccepted_eq (h : L.Parses run run') :
    Parser.isAccepted ⟨g, leo, b⟩ run = Parser.isAccepted ⟨g, leo, b'⟩ run' := by
  have hget := h.get?
  unfold Parser.isAccepted Parser.accepting?
  generalize run.chart.get? run.location = x at hget
  generalize run'.chart.get? run'.location = y at hget
  cases hget with
  | none => rfl
  | @some set set' hset =>
    have hfind : Option.Rel L.States
        (set.completions.toList.find? fun s => s.origin = 0 && s.rule.lhs = g.start)
        (set'.completions.toList.find? fun s => s.origin = 0 && s.rule.lhs = g.start) :=
      forall₂_find? (hset.queue .completions) fun s s' hs => by rw [hs.item_eq]
    dsimp only
    generalize set.completions.toList.find? _ = s at hfind
    generalize set'.completions.toList.find? _ = s' at hfind
    cases hfind <;> rfl

/-- Linked parses answer alike. -/
theorem Parses.alike {input : List (List Token)} (hL : L.Kept g b b') (h : L.Parses run run')
    (ht : Parser.Tracks ⟨g, leo, b⟩ input run) :
    Alike (⟨g, leo, b⟩ : Parser σ) (⟨g, leo, b'⟩ : Parser τ) run run' := by
  obtain ⟨⟨rules, next⟩, hx, -⟩ := Parser.expected_spec ht
  have hexpected : InStep (fun x y => x.1 = y.1 ∧ L.Parses x.2 y.2) (Parser.expected ⟨g, leo, b⟩ run)
      (Parser.expected ⟨g, leo, b'⟩ run') := h.expected hL
  rw [hx] at hexpected
  obtain ⟨⟨_, next'⟩, hy, rfl, -⟩ := hexpected.exists_ok
  exact ⟨h.location_eq, h.isAccepted_eq, rules, next, next', hx, hy⟩

/-- From linked parses, linked calls lead to the same answers and to linked parses. -/
theorem Parses.performAll_agree {input : List (List Token)} {calls calls' : List Call} (hL : L.Kept g b b')
    (h : L.Parses run run') (ht : Parser.Tracks ⟨g, leo, b⟩ input run) (hcalls : List.Forall₂ L.Calls calls calls') :
    ∃ answers next next',
      Recognizer.performAll (⟨g, leo, b⟩ : Parser σ) run calls = .ok (answers, next) ∧
      Recognizer.performAll (⟨g, leo, b'⟩ : Parser τ) run' calls' = .ok (answers, next') ∧
      Alike (⟨g, leo, b⟩ : Parser σ) (⟨g, leo, b'⟩ : Parser τ) next next' ∧ L.Parses next next' := by
  obtain ⟨⟨answers, next⟩, hnext, -, htracks⟩ := (Parser.follows ⟨g, leo, b⟩).performAll_spec ht calls
  have hboth : InStep (fun x y => x.1 = y.1 ∧ L.Parses x.2 y.2)
      (Recognizer.performAll (⟨g, leo, b⟩ : Parser σ) run calls)
      (Recognizer.performAll (⟨g, leo, b'⟩ : Parser τ) run' calls') := h.performAll hL hcalls
  rw [hnext] at hboth
  obtain ⟨⟨_, next'⟩, hnext', rfl, hlink⟩ := hboth.exists_ok
  exact ⟨answers, next, next', hnext, hnext', hlink.alike hL htracks, hlink⟩

end Answers

/-- Tokens correspond in their types, nodes and forests in nothing, and all else is
equal. -/
def typesOnly (σ τ : Type) : Link σ τ where
  node _ _ := True
  token t t' := t.tokenType = t'.tokenType
  forest _ _ := True
  table := Eq
  expectations := Eq
  journal := Eq

theorem typesOnly_kept (g : Grammar) (b : ForestBuilder σ) (b' : ForestBuilder τ) : (typesOnly σ τ).Kept g b b' where
  none := trivial
  tokenType_eq := id
  attach _ _ := ⟨trivial, trivial⟩
  intern r := congrArg (RuleTable.intern · r)
  collect := Expectations.interchangeable_eq g
  push entry := congrArg (Array.push · entry)

end Link

/-! ## Sessions -/

/-- Tokens of the same types in the same order. -/
def SameTypes : List Token → List Token → Prop := List.Forall₂ fun t t' => t.tokenType = t'.tokenType

theorem Link.calls_of_sameTypes {call call' : Call} (h : call.Rel SameTypes call') : (typesOnly σ τ).Calls call call' := by
  cases h with
  | offer h => exact .offer h
  | expected => exact .expected
  | restart => exact .restart

/-- Sessions whose tokens agree in their types, with any two forest builders, give the
same answers; their parses are alike, have the same table, journal and number of
memoized paths, and the same chart but for its nodes. -/
theorem recognition_sees_types_only (g : Grammar) (leo : Bool) (builder : ForestBuilder σ) (builder' : ForestBuilder τ)
    (forest : σ) (forest' : τ) (calls calls' : List Call) (hcalls : List.Forall₂ (Call.Rel SameTypes) calls calls') :
    SessionsAgree (⟨g, leo, builder⟩ : Parser σ) (⟨g, leo, builder'⟩ : Parser τ)
      (Parser.start ⟨g, leo, builder⟩ forest) (Parser.start ⟨g, leo, builder'⟩ forest') calls calls' fun run run' =>
        run.memoized = run'.memoized ∧ run.table = run'.table ∧ run.journal = run'.journal ∧
        run.chart.bare = run'.chart.bare := by
  have hkept := Link.typesOnly_kept g builder builder'
  obtain ⟨run₀, hstart, ht⟩ := Parser.start_spec ⟨g, leo, builder⟩ forest
  have hboth : InStep (Link.typesOnly σ τ).Parses (Parser.start ⟨g, leo, builder⟩ forest)
      (Parser.start ⟨g, leo, builder'⟩ forest') := Link.startOver hkept rfl trivial rfl rfl
  rw [hstart] at hboth
  obtain ⟨run₀', hstart', h⟩ := hboth.exists_ok
  obtain ⟨answers, run, run', hrun, hrun', halike, h⟩ :=
    h.performAll_agree hkept ht (hcalls.imp fun _ _ => Link.calls_of_sameTypes)
  rw [hstart, hstart']
  exact ⟨answers, run, run', hrun, hrun', halike, h.memoized_eq, h.table, h.journal, h.chart.bare_eq⟩

namespace Parser

/-- A builder that gives a new node for every move and one that gives none, for an `x`
and for another token of its type. -/
theorem recognition_sees_types_only_manyXs :
    List.Forall₂ (Call.Rel SameTypes) [.offer [⟨"x", 0, ⟨"x"⟩⟩]] [.offer [⟨"X", 7, ⟨"x"⟩⟩]] ∧
    SessionsAgree (⟨manyXs, true, .recording .fresh⟩ : Parser Recording) (⟨manyXs, true, .none⟩ : Parser Unit)
      (Parser.start ⟨manyXs, true, .recording .fresh⟩ .empty) (Parser.start ⟨manyXs, true, .none⟩ ())
      [.offer [⟨"x", 0, ⟨"x"⟩⟩]] [.offer [⟨"X", 7, ⟨"x"⟩⟩]] fun run run' =>
        run.memoized = run'.memoized ∧ run.table = run'.table ∧ run.journal = run'.journal ∧
        run.chart.bare = run'.chart.bare := by
  have htypes : SameTypes [⟨"x", 0, ⟨"x"⟩⟩] [⟨"X", 7, ⟨"x"⟩⟩] := .cons rfl .nil
  have hcalls : List.Forall₂ (Call.Rel SameTypes) [.offer [⟨"x", 0, ⟨"x"⟩⟩]] [.offer [⟨"X", 7, ⟨"x"⟩⟩]] :=
    .cons (.offer htypes) .nil
  exact ⟨hcalls, recognition_sees_types_only manyXs true (.recording .fresh) .none .empty () _ _ hcalls⟩

end Parser

end ChartParser
