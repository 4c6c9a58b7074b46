import ChartParser.Proofs.Parser.Watched
/-!
# What a jump passes over

A jump goes from a completion to the top of its memoized path at once. The moves it
leaves out can be found by walking from one sole waiting state to the next, up to
the first that begins at the origin of the jump (`Walk`). The walk ends at the state
that became the rule of the jump, unless the path goes on from there. Then one more
state is on the path: it begins in the very set where it waits, so that the origin
is reached before it, and it is this state that became the rule (`jumps_rebuilt`).
-/
namespace ChartParser

/-- The walk that begins with `A` in set `k` and goes from each sole waiting state to
its left-hand side and origin. It ends at the first state that begins in set `o`:
the state `s` of set `i`. -/
inductive Walk (c : Chart ItemSet) (o : Nat) : NonTerminal → Nat → State → Nat → Prop
  | done {A : NonTerminal} {k : Nat} {s : State} (hs : c.waiting k A = [s]) (ho : s.origin = o) : Walk c o A k s k
  | step {A : NonTerminal} {k i : Nat} {s s' : State} (hs : c.waiting k A = [s]) (ho : s.origin ≠ o)
    (h : Walk c o s.rule.lhs s.origin s' i) : Walk c o A k s' i

/-- The path goes on from the complete rule `r`, which began in set `o` and for which
the last state waited in set `i`. -/
def Chart.GoesOn (c : Chart ItemSet) (start : NonTerminal) (r : DottedRule) (o i : Nat) : Prop :=
  (o < i ∧ ¬(o = 0 ∧ r.lhs = start)) ∧ c.top? start r.lhs o ≠ none

/-- How the jump over `A`, begun in set `k`, follows from the chart: the walk ends, and
the state at its end, moved on, is the rule of the jump exactly if the path does not
go on. If it does, it goes on to a state of set `m.origin` that begins there. -/
def Rebuilt (start : NonTerminal) (c : Chart ItemSet) (m : DotMove) (A : NonTerminal) (k : Nat) : Prop :=
  ∃ s i r, Walk c m.origin A k s i ∧ s.rule.advance? = some r ∧
    (m.rule = r ↔ ¬c.GoesOn start r m.origin i) ∧
    (c.GoesOn start r m.origin i → ∃ s', c.waiting m.origin r.lhs = [s'] ∧ s'.origin = m.origin ∧
      s'.rule.advance? = some m.rule)

variable {g : Grammar} {input : List (List Token)} {c : Chart ItemSet} {j k i o : Nat} {A : NonTerminal} {s : State}

theorem Walk.unique {s' : State} {i' : Nat} (h : Walk c o A k s i) (h' : Walk c o A k s' i') : s' = s ∧ i' = i := by
  induction h with
  | done hs ho =>
    cases h' with
    | done hs' => exact ⟨List.singleton_inj.1 (hs'.symm.trans hs), rfl⟩
    | step hs' ho' =>
      cases List.singleton_inj.1 (hs'.symm.trans hs)
      exact absurd ho ho'
  | step hs ho _ ih =>
    cases h' with
    | done hs' ho' =>
      cases List.singleton_inj.1 (hs'.symm.trans hs)
      exact absurd ho' ho
    | step hs' _ h' =>
      cases List.singleton_inj.1 (hs'.symm.trans hs)
      exact ih h'

/-! ## Walks along paths -/

theorem Chart.top?_cases {start : NonTerminal} {t : DottedRule × Nat} (h : c.top? start A k = some t) :
    ∃ s r, c.waiting k A = [s] ∧ s.rule.advance? = some r ∧
      ((¬c.GoesOn start r s.origin k ∧ t = (r, s.origin)) ∨
        (c.GoesOn start r s.origin k ∧ c.top? start r.lhs s.origin = some t)) := by
  obtain ⟨s, r, hs, hr, -, rfl⟩ := Chart.top?_eq_some_iff.1 h
  refine ⟨s, r, hs, hr, ?_⟩
  unfold GoesOn
  split
  · rename_i hcl
    cases htop : c.top? start r.lhs s.origin with
    | none => exact .inl ⟨fun hgo => hgo.2 rfl, rfl⟩
    | some t => exact .inr ⟨⟨hcl, Option.some_ne_none t⟩, rfl⟩
  · rename_i hcl
    exact .inl ⟨fun hgo => hcl hgo.1, rfl⟩

namespace Sound

theorem exists_walk (h : Sound g input j c) {t : DottedRule × Nat} (ht : c.top? g.start A k = some t) :
    ∃ s i r, Walk c t.2 A k s i ∧ s.rule.advance? = some r ∧ (¬c.GoesOn g.start r t.2 i → t.1 = r) ∧
      (c.GoesOn g.start r t.2 i → ∃ s', c.waiting t.2 r.lhs = [s'] ∧ s'.origin = t.2 ∧
        s'.rule.advance? = some t.1) := by
  induction k using Nat.strongRecOn generalizing A with
  | _ k ih =>
    obtain ⟨s, r, hs, hr, ⟨hno, rfl⟩ | ⟨hgo, htop⟩⟩ := Chart.top?_cases ht
    · exact ⟨s, k, r, .done hs rfl, hr, fun _ => rfl, fun hgo => absurd hgo hno⟩
    · by_cases ho : s.origin = t.2
      · -- The walk is over, but the path goes on within the set of the origin.
        rw [ho] at hgo htop
        refine ⟨s, k, r, .done hs ho, hr, fun hno => absurd hgo hno, fun _ => ?_⟩
        obtain ⟨s', r', hs', hr', ⟨-, htop'⟩ | ⟨hgo', htop'⟩⟩ := Chart.top?_cases htop
        · rw [Prod.ext_iff] at htop'
          exact ⟨s', hs', htop'.2.symm, htop'.1 ▸ hr'⟩
        · have hle := h.top?_origin_le htop'
          have hlt := hgo'.1.1
          omega
      · obtain ⟨s', i, r', hwalk, hrest⟩ := ih s.origin hgo.1.1 htop
        rw [(DottedRule.advance?_some hr).2.1] at hwalk
        exact ⟨s', i, r', .step hs ho hwalk, hrest⟩

end Sound

/-! ## The rule of a jump over a longer path -/

/-- Unless it is the start symbol at the beginning, some item waits for what begins
at a location, and not only one that itself begins there with the same left-hand
side. -/
theorem Deducible.exists_waiting {r : DottedRule} {B : NonTerminal} (h : Deducible g input r i j) (hij : i = j)
    (hB : r.lhs = B) (hstart : ¬(j = 0 ∧ B = g.start)) :
    ∃ w l, Deducible g input w l j ∧ w.postDot? = some (.nonTerminal B) ∧ ¬(w.lhs = B ∧ l = j) := by
  induction h with
  | start hr => exact absurd ⟨rfl, hB.symm.trans (Grammar.HasRule.of_mem_initialRules hr).2⟩ hstart
  | @predict r r' l j A h hA hr' ih =>
    obtain rfl : A = B := (Grammar.HasRule.of_mem_initialRules hr').2.symm.trans hB
    by_cases hself : r.lhs = A ∧ l = j
    · exact ih hself.2 hself.1 hstart
    · exact ⟨r, l, h, hA, hself⟩
  | scan h =>
    have := h.origin_le
    omega
  | @complete r r' d i l j h hA hd hc hr ih =>
    have := h.origin_le
    have := hd.origin_le
    obtain rfl : l = j := by omega
    exact ih hij ((DottedRule.advance?_some hr).2.1.symm.trans hB) hstart

namespace Parser

variable {σ : Type} {p : Parser σ} {run : Parse σ}

namespace Tracks

/-- The state that a path goes on to does not have the left-hand side that it
waits for. -/
theorem ne_of_sole (h : Tracks p input run) {r r' : DottedRule} (hstart : ¬(o = 0 ∧ r.lhs = p.grammar.start))
    (hs : run.chart.waiting o r.lhs = [s]) (ho : s.origin = o) (hr : s.rule.advance? = some r') : r' ≠ r := by
  rintro rfl
  have hlhs := (DottedRule.advance?_some hr).2.1
  have hmem := (Chart.mem_waiting.1 (show s ∈ run.chart.waiting o r'.lhs by simp [hs])).1
  have hd := h.sound.deducible_of_holds (h.sound.holds hmem (by simp))
  obtain ⟨w, l, hw, hwaits, hother⟩ := hd.exists_waiting ho hlhs.symm hstart
  obtain ⟨s', hs', rfl, rfl⟩ := h.sound.mem_lane ((h.holds_iff_of_postDot? hwaits).2 hw)
    (Item.lane_eq_predictions_iff.2 ⟨rfl, r'.lhs, hwaits⟩)
  -- Only `s` waits, so it would be the other item.
  have hsole : s' ∈ run.chart.waiting o r'.lhs := Chart.mem_waiting.2 ⟨hs', hwaits⟩
  rw [hs, List.mem_singleton] at hsole
  subst hsole
  exact hother ⟨hlhs.symm, ho⟩

theorem rebuilt (h : Tracks p input run) {m : DotMove}
    (ht : run.chart.top? p.grammar.start A k = some (m.rule, m.origin)) :
    Rebuilt p.grammar.start run.chart m A k := by
  obtain ⟨s, i, r, hwalk, hr, hends, hgoes⟩ := h.sound.exists_walk ht
  refine ⟨s, i, r, hwalk, hr, ⟨fun heq hgo => ?_, hends⟩, hgoes⟩
  obtain ⟨s', hs', ho', hr'⟩ := hgoes hgo
  exact h.ne_of_sole hgo.1.2 hs' ho' hr' heq

end Tracks

/-! ## Sessions -/

/-- If `m` is a jump, it leads to the top of its path, which begins before the present
location. -/
def JumpsToTop (g : Grammar) (run : Parse (σ × List DotMove)) (m : DotMove) : Prop :=
  ∀ A k node, m.crossed = .transitive A k node →
    k < run.location ∧ run.chart.top? g.start A k = some (m.rule, m.origin)

/-- All jumps that the builder was shown between `run` and `run'` lead to the top of
their paths. -/
def ShownJumps (g : Grammar) (run run' : Parse (σ × List DotMove)) : Prop :=
  ∃ moves, run'.forest.2 = run.forest.2 ++ moves ∧ ∀ m ∈ moves, JumpsToTop g run' m

theorem ShownJumps.trans {run run' run'' : Parse (σ × List DotMove)} (h : ShownJumps g run run')
    (h' : ShownJumps g run' run'') (hkeep : ∀ m, JumpsToTop g run' m → JumpsToTop g run'' m) :
    ShownJumps g run run'' := by
  obtain ⟨moves, hmoves, hall⟩ := h
  obtain ⟨moves', hmoves', hall'⟩ := h'
  refine ⟨moves ++ moves', by rw [hmoves', hmoves, List.append_assoc], fun m hm => ?_⟩
  rcases List.mem_append.1 hm with hm | hm
  · exact hkeep m (hall m hm)
  · exact hall' m hm

variable {leo : Bool} {b : ForestBuilder σ} {run run' : Parse (σ × List DotMove)}

theorem shownJumps_of_steps (h : Steps ⟨g, leo, b.watched⟩ input j run run') (hs : Sound g input j run.chart)
    (hj : run'.location = j) : ShownJumps g run run' := by
  obtain ⟨moves, hmoves, hall⟩ := h.exists_moves hs
  refine ⟨moves, hmoves, fun m hm A k node hcrossed => ?_⟩
  rw [hj]
  exact (hall m hm).top?_eq (Steps.keeps h hs).1 hcrossed

/-- Starting over shows no jump, since no set lies before the first. -/
theorem startOver_jumps (he : Expectations.Valid g run.expectations) :
    Succeeds (startOver ⟨g, leo, b.watched⟩ run) fun run' => Tracks ⟨g, leo, b.watched⟩ [] run' ∧
      ShownJumps g run run' := by
  refine (startOver_spec he).mono fun run' ⟨ht, hsteps⟩ => ⟨ht, ?_⟩
  have hshown : ShownJumps g run.emptied run' := shownJumps_of_steps hsteps (sound_empty g) ht.location_eq
  exact hshown

/-- A call shows jumps to the top only, and unless it starts over, earlier jumps still
lead there. -/
theorem Tracks.perform_jumps (h : Tracks ⟨g, leo, b.watched⟩ input run) (call : Call) :
    Succeeds (Recognizer.perform (⟨g, leo, b.watched⟩ : Parser _) run call) fun x =>
      (∃ input', Tracks ⟨g, leo, b.watched⟩ input' x.2) ∧ ShownJumps g run x.2 ∧
        (call ≠ .restart → ∀ m, JumpsToTop g run m → JumpsToTop g x.2 m) := by
  by_cases hcall : call = .restart
  · subst hcall
    have hrestart : Succeeds (restart ⟨g, leo, b.watched⟩ run) fun run' => Tracks ⟨g, leo, b.watched⟩ [] run' ∧
        ShownJumps g run run' := startOver_jumps h.expectations
    exact hrestart.bind fun run' ⟨ht, hshown⟩ => .pure ⟨⟨[], ht⟩, hshown, fun hne => absurd rfl hne⟩
  · refine (h.perform_steps hcall).mono fun x ⟨input', ht, hs, hsteps⟩ => ⟨⟨input', ht⟩, ?_, fun _ m hm A k node hx => ?_⟩
    · exact shownJumps_of_steps hsteps hs ht.location_eq
    · -- The sets that the path passes lie before the one that has grown.
      obtain ⟨hk, htop⟩ := hm A k node hx
      have hg := (Steps.keeps hsteps hs).2
      have hsize := hg.size_le
      rw [h.size_eq, ht.size_eq] at hsize
      rw [h.location_eq] at hk
      rw [ht.location_eq, hg.top?_eq (by omega)]
      exact ⟨by omega, htop⟩

theorem Tracks.performAll_jumps (h : Tracks ⟨g, leo, b.watched⟩ input run) {calls : List Call}
    (hcalls : Call.restart ∉ calls) :
    Succeeds (Recognizer.performAll (⟨g, leo, b.watched⟩ : Parser _) run calls) fun x =>
      (∃ input', Tracks ⟨g, leo, b.watched⟩ input' x.2) ∧ ShownJumps g run x.2 ∧
        ∀ m, JumpsToTop g run m → JumpsToTop g x.2 m := by
  induction calls generalizing input run with
  | nil => exact .pure ⟨⟨input, h⟩, ⟨[], by simp, by simp⟩, fun _ hm => hm⟩
  | cons call calls ih =>
    rw [List.mem_cons, not_or] at hcalls
    refine (h.perform_jumps call).bind fun x ⟨⟨input', ht⟩, hshown, hkeep⟩ => ?_
    refine (ih ht hcalls.2).bind fun y ⟨ht', hshown', hkeep'⟩ => .pure ⟨ht', hshown.trans hshown' hkeep', ?_⟩
    exact fun m hm => hkeep' m (hkeep (Ne.symm hcalls.1) m hm)

/-- In every parse with memoized paths, whatever the forest builder, each jump is
rebuilt by the walk as `Rebuilt` says, from its call on until the parse starts over. A
parse that has just started has shown no jump. -/
theorem jumps_rebuilt (g : Grammar) (builder : ForestBuilder σ) (forest : σ) (history more : List Call)
    (hmore : Call.restart ∉ more.tail) : ∃ start answers run answers' run' moves,
      Parser.start ⟨g, true, builder.watched⟩ (forest, []) = .ok start ∧
      (∀ m ∈ start.forest.2, ∀ A k node, m.crossed ≠ .transitive A k node) ∧
      Recognizer.performAll (⟨g, true, builder.watched⟩ : Parser _) start history = .ok (answers, run) ∧
      Recognizer.performAll (⟨g, true, builder.watched⟩ : Parser _) run more = .ok (answers', run') ∧
      run'.forest.2 = run.forest.2 ++ moves ∧
      ∀ m ∈ moves, ∀ A k node, m.crossed = .transitive A k node → Rebuilt g.start run'.chart m A k := by
  have hstart : Succeeds (Parser.start ⟨g, true, builder.watched⟩ (forest, [])) fun run =>
      Tracks ⟨g, true, builder.watched⟩ [] run ∧ ∀ m ∈ run.forest.2, JumpsToTop g run m := by
    refine (startOver_jumps (Expectations.valid_ofGrammar g)).mono fun run ⟨ht, moves, hmoves, hall⟩ => ⟨ht, ?_⟩
    rw [hmoves]
    exact hall
  obtain ⟨start, hstart, h₀, hnone⟩ := hstart
  obtain ⟨⟨answers, run⟩, hrun, -, h⟩ := (follows _).performAll_spec h₀ history
  have hjumps : Succeeds (Recognizer.performAll (⟨g, true, builder.watched⟩ : Parser _) run more) fun x =>
      (∃ input', Tracks ⟨g, true, builder.watched⟩ input' x.2) ∧ ShownJumps g run x.2 := by
    cases more with
    | nil => exact .pure ⟨⟨_, h⟩, [], by simp, by simp⟩
    | cons call calls =>
      refine (h.perform_jumps call).bind fun x ⟨⟨_, ht⟩, hshown, _⟩ => ?_
      refine (ht.performAll_jumps hmore).bind fun y ⟨ht', hshown', hkeep⟩ => .pure ⟨ht', hshown.trans hshown' hkeep⟩
  obtain ⟨⟨answers', run'⟩, hrun', ⟨_, h'⟩, moves, hmoves, hall⟩ := hjumps
  refine ⟨start, answers, run, answers', run', moves, hstart, ?_, hrun, hrun', hmoves, ?_⟩
  · intro m hm A k node hx
    have hk := (hnone m hm A k node hx).1
    rw [h₀.location_eq] at hk
    exact absurd hk (Nat.not_lt_zero k)
  · intro m hm A k node hx
    exact h'.rebuilt (hall m hm A k node hx).2

/-- A right-recursive path below a start production of one symbol. -/
def unitStart : Grammar where
  start := ⟨"S"⟩
  productions := [⟨⟨"S"⟩, [.nonTerminal ⟨"U"⟩]⟩, ⟨⟨"U"⟩, [.terminal (.char 'b'), .nonTerminal ⟨"V"⟩]⟩,
    ⟨⟨"V"⟩, [.terminal (.char 'c')]⟩]
  ignored := []
  nullable := []
  lexerRules := [.char 'b', .char 'c']
  start_defined := by decide
  rhs_defined := fun _ hp _ hA => defines_of_undefinedUse?_eq_none (by decide) hp hA
  nullable_eq := by decide +kernel
  lexerRules_eq := by decide +kernel

namespace unitStart

def parser : Parser (Unit × List DotMove) := ⟨unitStart, true, ForestBuilder.none.watched⟩

def calls : List Call := [.offer [Token.ofChar 'b' 0], .offer [Token.ofChar 'c' 1]]

/-- The jump from the completion of `V` to `S -> U .` -/
def jump : DotMove := ⟨⟨0, ⟨"S"⟩, [.nonTerminal ⟨"U"⟩], []⟩, 0, 2, none, .transitive ⟨"V"⟩ 1 none⟩

/-- The rule `U -> 'b' . V` -/
def awaiting : DottedRule := ⟨1, ⟨"U"⟩, [.terminal (.char 'b')], [.nonTerminal ⟨"V"⟩]⟩

theorem session : ∃ answers run, (do Recognizer.performAll parser (← parser.start ((), [])) calls) = .ok (answers, run) ∧
    jump ∈ run.forest.2 ∧ run.chart.waiting 1 ⟨"V"⟩ = [.normal awaiting 0 none] :=
  ⟨_, _, by with_unfolding_all rfl, List.mem_of_getElem? (i := 2) (by with_unfolding_all rfl),
    by with_unfolding_all rfl⟩

end unitStart

/-- After `b` and `c`, the path of `V` goes on from `U -> 'b' V .` to `S -> U .`, which
begins at 0 like the rule before it. The walk ends with the former, the jump has the
latter. -/
theorem unitStart_jump_beyond_walk : ∃ answers run,
    (do Recognizer.performAll unitStart.parser (← unitStart.parser.start ((), [])) unitStart.calls) =
      .ok (answers, run) ∧
    ∃ m ∈ run.forest.2, m.crossed = .transitive ⟨"V"⟩ 1 none ∧
      ∀ s i, Walk run.chart m.origin ⟨"V"⟩ 1 s i → s.rule.advance? ≠ some m.rule := by
  obtain ⟨answers, run, hrun, hm, hw⟩ := unitStart.session
  refine ⟨answers, run, hrun, unitStart.jump, hm, rfl, fun s i hwalk => ?_⟩
  have hdone : Walk run.chart 0 ⟨"V"⟩ 1 (.normal unitStart.awaiting 0 none) 1 := .done hw rfl
  obtain ⟨rfl, -⟩ := hdone.unique hwalk
  decide

theorem jumps_rebuilt_unitStart : Call.restart ∉ unitStart.calls.tail ∧ ∃ answers run,
    (do Recognizer.performAll unitStart.parser (← unitStart.parser.start ((), [])) unitStart.calls) =
      .ok (answers, run) ∧
    unitStart.jump ∈ run.forest.2 ∧ Rebuilt unitStart.start run.chart unitStart.jump ⟨"V"⟩ 1 := by
  have hmore : Call.restart ∉ unitStart.calls.tail := by simp [unitStart.calls]
  obtain ⟨start, _, _, answers, run, moves, hstart, hnone, hhistory, hrun, hmoves, hall⟩ :=
    jumps_rebuilt unitStart .none () [] unitStart.calls hmore
  cases hhistory
  obtain ⟨answers', run', hrun', hm, -⟩ := unitStart.session
  have hsession : (do Recognizer.performAll unitStart.parser (← unitStart.parser.start ((), [])) unitStart.calls) =
      .ok (answers, run) := bind_eq_ok_iff.2 ⟨start, hstart, hrun⟩
  cases hrun'.symm.trans hsession
  refine ⟨hmore, answers, run, hrun', hm, ?_⟩
  rw [hmoves] at hm
  rcases List.mem_append.1 hm with hm | hm
  · exact absurd rfl (hnone _ hm ⟨"V"⟩ 1 none)
  · exact hall _ hm ⟨"V"⟩ 1 none rfl

end Parser

end ChartParser
