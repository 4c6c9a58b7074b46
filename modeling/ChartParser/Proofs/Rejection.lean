import ChartParser.Proofs.Frame.Link
import ChartParser.Proofs.Frame.Tracking
import ChartParser.Proofs.Parser.Link
import ChartParser.Proofs.Parser.Tracking
/-!
# Rejected tokens leave no trace

An offer that is rejected changes nothing but the journal, and the journal decides
nothing. So rejected offers may be left out of a session, and all other calls get
the same answers (`rejection_is_atomic`).
-/
namespace ChartParser

/-! ## Sessions with fewer offers -/

/-- The second session is the first one without some of its rejected offers. -/
inductive Thins : List (Call × Answer) → List (Call × Answer) → Prop
  | nil : Thins [] []
  | keep {log log' : List (Call × Answer)} (x : Call × Answer) (h : Thins log log') : Thins (x :: log) (x :: log')
  | drop {log log' : List (Call × Answer)} (tokens : List Token) (h : Thins log log') :
    Thins ((.offer tokens, .taken false) :: log) log'

/-- Leaving out rejected offers changes neither the answers to the other calls nor,
as far as `Same` tells, the parse in the end. -/
def Forgets {P R : Type} [Recognizer P R] (p : P) (start : Except Fault R) (Same : R → R → Prop) : Prop :=
  ∀ log log' run, Thins log log' →
    (do Recognizer.performAll p (← start) (log.map Prod.fst)) = .ok (log.map Prod.snd, run) →
    ∃ run', (do Recognizer.performAll p (← start) (log'.map Prod.fst)) = .ok (log'.map Prod.snd, run') ∧
      Same run run'

theorem Recognizer.performAll_cons_eq_ok_iff {P R : Type} [Recognizer P R] {p : P} {run next : R} {call : Call}
    {calls : List Call} {answer : Answer} {answers : List Answer} :
    Recognizer.performAll p run (call :: calls) = .ok (answer :: answers, next) ↔
      ∃ run₁, Recognizer.perform p run call = .ok (answer, run₁) ∧
        Recognizer.performAll p run₁ calls = .ok (answers, next) := by
  simp only [performAll, bind_eq_ok_iff, pure, Except.pure, Except.ok.injEq, Prod.exists, Prod.mk.injEq,
    List.cons.injEq]
  constructor
  · rintro ⟨a, run₁, h, as, run₂, h', ⟨rfl, rfl⟩, rfl⟩
    exact ⟨run₁, h, h'⟩
  · rintro ⟨run₁, h, h'⟩
    exact ⟨answer, run₁, h, answers, next, h', ⟨rfl, rfl⟩, rfl⟩

theorem Follows.thin {P R : Type} [Recognizer P R] {p : P} {g : Grammar} {Tracks : List (List Token) → R → Prop}
    (hf : Follows p g Tracks) (Same : R → R → Prop)
    (hstep : ∀ {run run'} call, Same run run' → InStep (fun x y => x.1 = y.1 ∧ Same x.2 y.2)
      (Recognizer.perform p run call) (Recognizer.perform p run' call))
    (hreject : ∀ {input run run' tokens next}, Tracks input run → Same run run' →
      Recognizer.offer p run tokens = .ok (false, next) → Same next run')
    {input : List (List Token)} {run run' next : R} {log log' : List (Call × Answer)} (h : Tracks input run)
    (hs : Same run run') (hlog : Thins log log')
    (hrun : Recognizer.performAll p run (log.map Prod.fst) = .ok (log.map Prod.snd, next)) :
    ∃ next', Recognizer.performAll p run' (log'.map Prod.fst) = .ok (log'.map Prod.snd, next') ∧ Same next next' := by
  induction hlog generalizing input run run' with
  | nil =>
    cases hrun
    exact ⟨run', rfl, hs⟩
  | keep x _ ih =>
    obtain ⟨call, answer⟩ := x
    obtain ⟨run₁, hcall, hrest⟩ := Recognizer.performAll_cons_eq_ok_iff.1 hrun
    obtain ⟨y, hy, -, h₁⟩ := hf.perform_spec h call
    cases hcall.symm.trans hy
    have hboth := hstep call hs
    rw [hcall] at hboth
    obtain ⟨⟨_, run₁'⟩, hcall', rfl, hs₁⟩ := hboth.exists_ok
    obtain ⟨next', hrest', hs'⟩ := ih h₁ hs₁ hrest
    exact ⟨next', Recognizer.performAll_cons_eq_ok_iff.2 ⟨run₁', hcall', hrest'⟩, hs'⟩
  | drop tokens _ ih =>
    obtain ⟨run₁, hcall, hrest⟩ := Recognizer.performAll_cons_eq_ok_iff.1 hrun
    obtain ⟨y, hy, -, h₁⟩ := hf.perform_spec h (.offer tokens)
    cases hcall.symm.trans hy
    -- The parse after the rejected offer is still the same as the one without it.
    obtain ⟨⟨taken, next₁⟩, hoffer, hans⟩ := bind_eq_ok_iff.1 hcall
    cases hans
    exact ih h₁ (hreject h hs hoffer) hrest

/-! ## Parses that differ in their journals -/

variable {σ : Type}

/-- Everything corresponds to itself, and journals do not matter. -/
def Link.butJournal (σ : Type) : Link σ σ := ⟨Eq, Eq, Eq, Eq, Eq, fun _ _ => True⟩

theorem Link.butJournal_kept (g : Grammar) (b : ForestBuilder σ) : (Link.butJournal σ).Kept g b b where
  none := rfl
  tokenType_eq := congrArg Token.tokenType
  attach hm hs := by
    cases hm.eq_of_node id id
    cases hs
    exact ⟨rfl, rfl⟩
  intern r := congrArg (RuleTable.intern · r)
  collect := Expectations.interchangeable_eq g
  push _ _ := trivial

theorem Link.Parses.eq_but_journal {run run' : Parse σ} (h : (Link.butJournal σ).Parses run run') :
    run' = { run with journal := run'.journal } := by
  rw [Parse.mk.injEq]
  exact ⟨h.table.symm, (h.chart.eq_of_node id).symm, h.location_eq.symm, h.forest.symm, h.expectations.symm,
    h.memoized_eq.symm, rfl⟩

theorem Link.Parses.butJournal_refl (run : Parse σ) : (Link.butJournal σ).Parses run run := by
  have hsets : ∀ set : ItemSet, (Link.butJournal σ).Sets set set := fun set =>
    ⟨rfl, fun lane => List.forall₂_same.2 fun s _ => ⟨rfl, rfl⟩⟩
  exact ⟨rfl, List.forall₂_same.2 fun set _ => hsets set, rfl, rfl, rfl, rfl, trivial⟩

namespace Parser

variable {p : Parser σ} {input : List (List Token)} {run : Parse σ}

/-- Whatever the builder, a rejected offer only adds an entry to the journal. -/
theorem Tracks.offer_eq_of_rejected (h : Tracks p input run) {tokens : List Token} {next : Parse σ}
    (hoffer : p.offer run tokens = .ok (false, next)) (builder : ForestBuilder σ) :
    next = { run with journal := run.journal.push (.rejected run.location tokens.length) } ∧
      Parser.offer { p with builder } run tokens = .ok (false, next) := by
  have hsize : run.chart.size = run.location + 1 := by rw [h.size_eq, h.location_eq]
  have hunexpected := h.unexpected ((follows p).not_continues h hoffer)
  have hnext := hoffer.symm.trans (offer_eq_of_unexpected hsize hunexpected)
  rw [Except.ok.injEq, Prod.mk.injEq] at hnext
  refine ⟨hnext.2, ?_⟩
  rw [hnext.2]
  exact offer_eq_of_unexpected hsize hunexpected

theorem forgets (p : Parser σ) (forest : σ) :
    Forgets p (p.start forest) fun run run' => run' = { run with journal := run'.journal } := by
  intro log log' next hlog hrun
  obtain ⟨run, hstart, h⟩ := start_spec p forest
  rw [hstart] at hrun ⊢
  have hkept := Link.butJournal_kept p.grammar p.builder
  obtain ⟨next', hrun', hs⟩ := (follows p).thin (Link.butJournal σ).Parses
    (fun call hs => hs.perform hkept (.refl (fun _ => rfl) call))
    (fun h hs hoffer => by
      rw [(h.offer_eq_of_rejected hoffer p.builder).1]
      exact { hs with journal := trivial })
    h (Link.Parses.butJournal_refl run) hlog hrun
  exact ⟨next', hrun', hs.eq_but_journal⟩

end Parser

theorem FrameLink.eq_but_journal {run run' : FrameParse} (h : FrameLink Eq run run') :
    run' = { run with journal := run'.journal } := by
  rw [FrameParse.mk.injEq]
  exact ⟨h.chart_eq.symm, h.location_eq.symm, h.expectations.symm, rfl⟩

namespace FrameGraph

variable {graph : FrameGraph} {input : List (List Token)} {run : FrameParse}

theorem Tracks.offer_eq_of_rejected (hv : graph.Valid) (h : Tracks graph input run) {tokens : List Token}
    {next : FrameParse} (hoffer : graph.offer run tokens = .ok (false, next)) :
    next = { run with journal := run.journal.push (.rejected run.location tokens.length) } := by
  have hc := (follows hv).not_continues h hoffer
  have hnext := hoffer.symm.trans (offer_eq_of_not_continues hv h hc)
  rw [Except.ok.injEq, Prod.mk.injEq] at hnext
  exact hnext.2

theorem forgets (hv : graph.Valid) :
    Forgets graph graph.start fun run run' => run' = { run with journal := run'.journal } := by
  intro log log' next hlog hrun
  obtain ⟨run, hstart, h⟩ := start_spec hv
  rw [hstart] at hrun ⊢
  have hE := Expectations.interchangeable_eq graph.grammar
  obtain ⟨next', hrun', hs⟩ := (follows hv).thin (FrameLink Eq) (fun call hs => hs.perform hE hv call)
    (fun h hs hoffer => by
      rw [h.offer_eq_of_rejected hv hoffer]
      exact ⟨hs.chart_eq, hs.location_eq, hs.expectations⟩)
    h ⟨rfl, rfl, rfl⟩ hlog hrun
  exact ⟨next', hrun', hs.eq_but_journal⟩

end FrameGraph

/-- After every session, an offer that is rejected leaves the parse as it was, but for
an entry in its journal: a chart parser would answer the same with any other forest
builder, so the builder was not asked; a parser with frames has none. Rejected offers
may therefore be left out of any session. -/
theorem rejection_is_atomic (g : Grammar) :
    (∀ (leo : Bool) (builder : ForestBuilder σ) (forest : σ),
      (∀ calls, ∃ answers run,
        (do Recognizer.performAll (⟨g, leo, builder⟩ : Parser σ) (← Parser.start ⟨g, leo, builder⟩ forest) calls) =
          .ok (answers, run) ∧
        ∀ tokens, ∃ taken next, Parser.offer ⟨g, leo, builder⟩ run tokens = .ok (taken, next) ∧ (taken = false →
          next = { run with journal := run.journal.push (.rejected run.location tokens.length) } ∧
          ∀ builder', Parser.offer ⟨g, leo, builder'⟩ run tokens = .ok (false, next))) ∧
      Forgets (⟨g, leo, builder⟩ : Parser σ) (Parser.start ⟨g, leo, builder⟩ forest)
        fun run run' => run' = { run with journal := run'.journal }) ∧
    ∃ graph, FrameGraph.ofGrammar g = .ok graph ∧
      (∀ calls, ∃ answers run, (do Recognizer.performAll graph (← graph.start) calls) = .ok (answers, run) ∧
        ∀ tokens, ∃ taken next, graph.offer run tokens = .ok (taken, next) ∧ (taken = false →
          next = { run with journal := run.journal.push (.rejected run.location tokens.length) })) ∧
      Forgets graph graph.start fun run run' => run' = { run with journal := run'.journal } := by
  constructor
  · intro leo builder forest
    refine ⟨fun calls => ?_, Parser.forgets _ forest⟩
    obtain ⟨⟨answers, run⟩, hrun, _, h⟩ := Parser.session_spec ⟨g, leo, builder⟩ forest calls
    refine ⟨answers, run, hrun, fun tokens => ?_⟩
    obtain ⟨⟨taken, next⟩, hoffer, -⟩ := (Parser.follows _).offer_spec h tokens
    refine ⟨taken, next, hoffer, ?_⟩
    rintro rfl
    exact ⟨(h.offer_eq_of_rejected hoffer builder).1, fun builder' => (h.offer_eq_of_rejected hoffer builder').2⟩
  · obtain ⟨graph, hgraph, -, hv⟩ := FrameGraph.ofGrammar_spec g
    refine ⟨graph, hgraph, fun calls => ?_, FrameGraph.forgets hv⟩
    obtain ⟨⟨answers, run⟩, hrun, _, h⟩ := FrameGraph.session_spec hv calls
    refine ⟨answers, run, hrun, fun tokens => ?_⟩
    obtain ⟨⟨taken, next⟩, hoffer, -⟩ := (FrameGraph.follows hv).offer_spec h tokens
    refine ⟨taken, next, hoffer, ?_⟩
    rintro rfl
    exact h.offer_eq_of_rejected hv hoffer

end ChartParser
