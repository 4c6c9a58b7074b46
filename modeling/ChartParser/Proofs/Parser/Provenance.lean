import ChartParser.Proofs.Parser.Invariant
import ChartParser.Proofs.Parser.Watched
/-!
# Where nodes come from

The chart keeps one state for an item, and one node with it, but the forest builder is
shown every move. The node is the builder's answer to the first move that led to the
item since the parse was last started (`State.Explained`). A later move finds the item
in the chart, and its answer stays with the builder. States whose dot has not moved, and
memoized paths, have no node. So the root of the forest is the answer to a move that
completed the start symbol (`nodes_are_answers`).
-/
namespace ChartParser

variable {σ : Type}

/-- Production, position, origin and location of the move are those of `i` in set `j`. -/
def DotMove.leadsTo (m : DotMove) (i : Item) (j : Nat) : Bool :=
  m.rule.production = i.rule.production && m.rule.position = i.rule.position && m.origin = i.origin && m.location = j

theorem DotMove.leadsTo_iff {m : DotMove} {i : Item} {j : Nat} : m.leadsTo i j = true ↔
    m.rule.production = i.rule.production ∧ m.rule.position = i.rule.position ∧ m.origin = i.origin ∧ m.location = j := by
  simp [leadsTo, and_assoc]

namespace ForestLog

variable {log : ForestLog} {i : Item} {j : Nat} {answer : Option ForestNode}

/-- The answer to the first move that leads to `i` in set `j`. -/
def firstAnswer? (log : ForestLog) (i : Item) (j : Nat) : Option (Option ForestNode) :=
  (log.find? fun e => e.1.leadsTo i j).map (·.2)

theorem exists_of_firstAnswer? (h : log.firstAnswer? i j = some answer) :
    ∃ m, (m, answer) ∈ log ∧ m.leadsTo i j = true := by
  obtain ⟨e, hfind, rfl⟩ := Option.map_eq_some_iff.1 h
  have hleads := List.find?_some hfind
  exact ⟨e.1, List.mem_of_find?_eq_some hfind, hleads⟩

/-- What comes later makes no difference. -/
theorem firstAnswer?_append (h : log.firstAnswer? i j = some answer) (more : ForestLog) :
    firstAnswer? (log ++ more) i j = some answer := by
  obtain ⟨e, hfind, rfl⟩ := Option.map_eq_some_iff.1 h
  rw [firstAnswer?, List.find?_append, hfind, Option.some_or, Option.map_some]

theorem firstAnswer?_of_first (h : ∀ e ∈ log, e.1.leadsTo i j = false) {m : DotMove} (hm : m.leadsTo i j = true) :
    firstAnswer? (log ++ [(m, answer)]) i j = some answer := by
  have hnone : log.find? (fun e => e.1.leadsTo i j) = none := List.find?_eq_none.2 fun e he => by simp [h e he]
  simp [firstAnswer?, List.find?_append, hnone, hm]

end ForestLog

/-! ## Explained states -/

/-- The node of a state in set `j` is the answer to the first move that led there. A state
that no move leads to has no node. -/
structure State.Explained (log : ForestLog) (j : Nat) (s : State) : Prop where
  moved : s.kind = .normal → 0 < s.rule.position → log.firstAnswer? s.toItem j = some s.node
  begun : s.rule.position = 0 → s.node = none
  memoized : s.isTransitive = true → s.node = none

namespace State.Explained

variable {log : ForestLog} {j : Nat}

theorem append {s : State} (h : s.Explained log j) (more : ForestLog) : s.Explained (log ++ more) j :=
  ⟨fun hkind hpos => ForestLog.firstAnswer?_append (h.moved hkind hpos) more, h.begun, h.memoized⟩

theorem of_begins {g : Grammar} {c : Chart ItemSet} {r : DottedRule} (h : Begins g c j r) (log : ForestLog) :
    (State.normal r j none).Explained log j := by
  have hposition : r.position = 0 := by
    cases h with
    | start hr | predict _ hr =>
      obtain ⟨_, _, -, -, rfl⟩ := Grammar.mem_initialRules.1 hr
      rfl
  exact ⟨fun _ hpos => absurd hposition (Nat.ne_of_gt hpos), fun _ => rfl, fun _ => rfl⟩

theorem of_transitive (A : NonTerminal) (r : DottedRule) (i : Nat) (log : ForestLog) :
    (State.transitive A r i).Explained log j :=
  ⟨nofun, fun _ => rfl, fun _ => rfl⟩

theorem of_first {m : DotMove} (hposition : 0 < m.rule.position) {node : Option ForestNode}
    (h : ∀ e ∈ log, e.1.leadsTo ⟨m.rule, m.origin, .normal⟩ m.location = false) :
    (State.normal m.rule m.origin node).Explained (log ++ [(m, node)]) m.location := by
  refine ⟨fun _ _ => ?_, fun h0 => absurd h0 (Nat.ne_of_gt hposition), nofun⟩
  exact ForestLog.firstAnswer?_of_first h (DotMove.leadsTo_iff.2 ⟨rfl, rfl, rfl, rfl⟩)

end State.Explained

/-- The log explains all states of the chart, which has what the moves led to. -/
structure ForestLog.Explains (log : ForestLog) (b : ForestBuilder σ) (c : Chart ItemSet) : Prop where
  explained : ∀ {j l s}, s ∈ c.lane j l → s.Explained log j
  holds : ∀ {m answer}, (m, answer) ∈ log → c.Holds m.location m.rule m.origin
  answered : ∀ {m answer}, (m, answer) ∈ log → ∃ s, (b.attach m s).1 = answer

namespace ForestLog.Explains

variable {g : Grammar} {leo : Bool} {b : ForestBuilder σ} {input : List (List Token)} {j k : Nat} {c c' : Chart ItemSet}
  {log : ForestLog} {m : DotMove} {answer : Option ForestNode} {run run' : Parse (σ × ForestLog)}

theorem empty (b : ForestBuilder σ) : Explains [] b .empty := by
  have hlane : ∀ k l, Chart.empty.lane k l = [] := fun _ _ => rfl
  exact ⟨by simp [hlane], by simp, by simp⟩

/-- A move leads to one item only. -/
theorem rule_eq (h : log.Explains b c) (hs : Sound g input j c) (hm : (m, answer) ∈ log) {i : Item}
    (hi : g.HasRule i.rule) (hleads : m.leadsTo i k = true) : m.rule = i.rule := by
  obtain ⟨hproduction, hposition, -, -⟩ := DotMove.leadsTo_iff.1 hleads
  exact (hs.deducible_of_holds (h.holds hm)).hasRule.ext hi hproduction hposition

/-- A state comes in without a move. -/
theorem insert (h : log.Explains b c) (hg : c.Grows j c') {s : State} {l : Lane} {new : Bool}
    (hins : c.Inserted k l s new c') (hs : s.Explained log k) : log.Explains b c' := by
  refine ⟨fun hmem => ?_, fun hm => hg.holds (h.holds hm), h.answered⟩
  rcases hins.mem hmem with hold | ⟨rfl, -, rfl⟩
  · exact h.explained hold
  · exact hs

/-- A state comes in by a move. If it is new, no earlier move has led there. -/
theorem move (h : log.Explains b c) (hs : Sound g input m.location c) (hg : c.Grows m.location c')
    (hrule : g.HasRule m.rule) (hposition : 0 < m.rule.position) (s : σ) {l : Lane} {new : Bool}
    (hl : (State.normal m.rule m.origin (b.attach m s).1).lane = .ok l)
    (hins : c.Inserted m.location l (.normal m.rule m.origin (b.attach m s).1) new c') :
    Explains (log ++ [(m, (b.attach m s).1)]) b c' := by
  have hfirst : new = true → ∀ e ∈ log, e.1.leadsTo ⟨m.rule, m.origin, .normal⟩ m.location = false := by
    intro hnew e he
    by_contra hleads
    rw [Bool.not_eq_false] at hleads
    obtain ⟨-, -, horigin, hlocation⟩ := DotMove.leadsTo_iff.1 hleads
    have hholds := h.holds he
    rw [h.rule_eq hs he hrule hleads, horigin, hlocation] at hholds
    obtain ⟨a, ha, hi⟩ := hs.exists_mem_lane hholds hl
    exact hins.new_iff.1 hnew a ha hi
  refine ⟨fun hmem => ?_, fun hm => ?_, fun hm => ?_⟩
  · rw [hins.lane_eq] at hmem
    split at hmem
    · rename_i hat
      obtain ⟨rfl, rfl, hnew⟩ := hat
      rcases List.mem_append.1 hmem with hold | hmem
      · exact (h.explained hold).append _
      · rw [List.mem_singleton.1 hmem]
        exact .of_first hposition (hfirst hnew)
    · exact (h.explained hmem).append _
  · rcases List.mem_append.1 hm with hold | hm
    · exact hg.holds (h.holds hold)
    · cases List.mem_singleton.1 hm
      obtain ⟨a, ha, hi⟩ := hins.exists_mem
      exact Chart.holds_iff.2 ⟨l, a, ha, hi⟩
  · rcases List.mem_append.1 hm with hold | hm
    · exact h.answered hold
    · cases List.mem_singleton.1 hm
      exact ⟨s, rfl⟩

end ForestLog.Explains

/-- What has been logged since `past` explains the chart. -/
def Parse.ExplainedSince (b : ForestBuilder σ) (past : ForestLog) (run : Parse (σ × ForestLog)) : Prop :=
  ∃ log, run.forest.2 = past ++ log ∧ log.Explains b run.chart

theorem Parse.ExplainedSince.step {g : Grammar} {leo : Bool} {b : ForestBuilder σ} {input : List (List Token)} {j : Nat}
    {past : ForestLog} {run run' : Parse (σ × ForestLog)} (hs : Sound g input j run.chart)
    (hstep : Step ⟨g, leo, b.logged⟩ input j run run') (h : run.ExplainedSince b past) : run'.ExplainedSince b past := by
  obtain ⟨log, hlog, h⟩ := h
  have hg := (hstep.keeps hs).2
  cases hstep.effect hs with
  | idle hchart hforest =>
    rw [← hchart] at h
    exact ⟨log, by rw [hforest, hlog], h⟩
  | begin hr _ _ hins hforest => exact ⟨log, by rw [hforest, hlog], h.insert hg hins (.of_begins hr log)⟩
  | memoize _ _ _ _ _ _ hins hforest => exact ⟨log, by rw [hforest, hlog], h.insert hg hins (.of_transitive _ _ _ log)⟩
  | @move m _ _ node hm _ hl hins hforest =>
    obtain rfl := hm.location_eq
    obtain rfl : (b.attach m run.forest.1).1 = node := congrArg Prod.fst hforest
    have hshown : run.forest.2 ++ [(m, (b.attach m run.forest.1).1)] = run'.forest.2 := congrArg (·.2.2) hforest
    refine ⟨_, ?_, h.move hs hg (hm.deducible hs).hasRule (hm.position_pos hs) run.forest.1 hl hins⟩
    rw [← hshown, hlog, List.append_assoc]

/-! ## The root -/

namespace Parser

variable {p : Parser σ} {input : List (List Token)} {run : Parse σ} {s : State} {b : ForestBuilder σ} {log : ForestLog}

theorem mem_of_accepting? (h : p.accepting? run = some s) :
    s ∈ run.chart.lane run.location .completions ∧ s.origin = 0 ∧ s.rule.lhs = p.grammar.start := by
  unfold accepting? at h
  split at h
  · cases h
  · rename_i set hset
    have hmem : s ∈ (set.queue .completions).toList := List.mem_of_find?_eq_some h
    rw [Chart.queue_eq_lane (Chart.get_eq_ok_iff.2 hset)] at hmem
    exact ⟨hmem, by simpa using List.find?_some h⟩

/-- If some input was taken, a move has completed the start symbol. -/
theorem exists_move_of_accepting? {j : Nat} (hs : Sound p.grammar input j run.chart) (hlog : log.Explains b run.chart)
    (hlocation : 1 ≤ run.location) (h : p.accepting? run = some s) :
    ∃ m, (m, s.node) ∈ log ∧ m.origin = 0 ∧ m.location = run.location ∧ m.rule.isComplete = true ∧
      m.rule.lhs = p.grammar.start := by
  obtain ⟨hmem, horigin, hlhs⟩ := mem_of_accepting? h
  obtain ⟨hkind, hcomplete⟩ := Item.lane_eq_completions_iff.1 (hs.lane_ok hmem)
  have hd := hs.deducible hmem hkind
  have hposition : 0 < s.rule.position := by
    refine Nat.pos_of_ne_zero fun h0 => ?_
    have hspan := hd.origin_eq_of_position h0
    omega
  obtain ⟨m, hm, hleads⟩ := ForestLog.exists_of_firstAnswer? ((hlog.explained hmem).moved hkind hposition)
  obtain ⟨-, -, hm0, hml⟩ := DotMove.leadsTo_iff.1 hleads
  have hrule := hlog.rule_eq hs hm hd.hasRule hleads
  exact ⟨m, hm, hm0.trans horigin, hml, hrule ▸ hcomplete, hrule ▸ hlhs⟩

/-! ## Sessions -/

/-- What the builder's log has from before the parse was last started, in a session with
these calls. -/
inductive LoggedBefore (g : Grammar) (leo : Bool) (b : ForestBuilder σ) (forest : σ) : List Call → ForestLog → Prop
  | never {calls : List Call} (h : Call.restart ∉ calls) : LoggedBefore g leo b forest calls []
  | restarted {history more : List Call} {answers : List Answer} {old : Parse (σ × ForestLog)}
    (hold : (do Recognizer.performAll (⟨g, leo, b.logged⟩ : Parser _)
                  (← Parser.start ⟨g, leo, b.logged⟩ (forest, [])) history) = .ok (answers, old))
    (hmore : Call.restart ∉ more) :
    LoggedBefore g leo b forest (history ++ .restart :: more) old.forest.2

section Logged

variable {g : Grammar} {leo : Bool}

theorem startOver_explained {run : Parse (σ × ForestLog)} (he : Expectations.Valid g run.expectations) :
    Succeeds (startOver ⟨g, leo, b.logged⟩ run) fun run' =>
      Tracks ⟨g, leo, b.logged⟩ [] run' ∧ run'.ExplainedSince b run.forest.2 := by
  refine (startOver_spec he).mono fun run' ⟨ht, hsteps⟩ => ⟨ht, ?_⟩
  have hempty : run.emptied.ExplainedSince b run.forest.2 := ⟨[], by simp [Parse.emptied], .empty b⟩
  exact Steps.preserve hsteps (sound_empty g) Parse.ExplainedSince.step hempty

theorem logged_session_spec (g : Grammar) (leo : Bool) (b : ForestBuilder σ) (forest : σ) (calls : List Call) :
    Succeeds (do Recognizer.performAll (⟨g, leo, b.logged⟩ : Parser _)
                   (← Parser.start ⟨g, leo, b.logged⟩ (forest, [])) calls) fun x =>
      (∃ input, Tracks ⟨g, leo, b.logged⟩ input x.2) ∧
        ∃ past, LoggedBefore g leo b forest calls past ∧ x.2.ExplainedSince b past := by
  rcases Call.exists_last_restart calls with hcalls | ⟨history, more, rfl, hmore⟩
  · refine (startOver_explained (Expectations.valid_ofGrammar g)).bind fun run ⟨ht, hx⟩ => ?_
    refine (ht.performAll_keeps Parse.ExplainedSince.step hx hcalls).mono fun x ⟨input, ht', hx'⟩ => ?_
    exact ⟨⟨input, ht'⟩, [], .never hcalls, hx'⟩
  · obtain ⟨⟨answers, old⟩, hold, input, h⟩ := session_spec ⟨g, leo, b.logged⟩ (forest, []) history
    obtain ⟨start, hstart, hhistory⟩ := bind_eq_ok_iff.1 hold
    have hrestart : Succeeds (restart ⟨g, leo, b.logged⟩ old) fun run => Tracks ⟨g, leo, b.logged⟩ [] run ∧
        run.ExplainedSince b old.forest.2 := startOver_explained h.expectations
    obtain ⟨run, hrestart, ht, hx⟩ := hrestart
    obtain ⟨⟨answers', run'⟩, hmore', input', ht', hx'⟩ := ht.performAll_keeps Parse.ExplainedSince.step hx hmore
    have hrun := Recognizer.performAll_append hhistory (Recognizer.performAll_restart_cons hrestart hmore')
    exact .bind_ok hstart ⟨_, hrun, ⟨input', ht'⟩, _, .restarted hold hmore, hx'⟩

end Logged

/-- After every session, with every builder: a state whose dot has moved carries what the
builder answered to the first move that led to its item since the parse was last
started, and all other states carry no node. So if the builder always answers a node,
accepted input has a root once a token was taken, and the root is the answer to a move
that completed a start rule over the whole input. -/
theorem nodes_are_answers (g : Grammar) (leo : Bool) (builder : ForestBuilder σ) (forest : σ) (calls : List Call) :
    ∃ answers run past log,
      (do Recognizer.performAll (⟨g, leo, builder⟩ : Parser σ) (← Parser.start ⟨g, leo, builder⟩ forest) calls) =
        .ok (answers, run) ∧
      (do Recognizer.performAll (⟨g, leo, builder.logged⟩ : Parser _)
            (← Parser.start ⟨g, leo, builder.logged⟩ (forest, [])) calls) =
        .ok (answers, { run with forest := (run.forest, past ++ log) }) ∧
      LoggedBefore g leo builder forest calls past ∧
      (∀ j set, run.chart.get j = .ok set → ∀ s ∈ set.states, s.Explained log j) ∧
      ((∀ m s, (builder.attach m s).1.isSome = true) → 1 ≤ run.location →
        (Parser.root? ⟨g, leo, builder⟩ run).isSome = Parser.isAccepted ⟨g, leo, builder⟩ run ∧
        ∀ n, Parser.root? ⟨g, leo, builder⟩ run = some n → ∃ m, (m, some n) ∈ log ∧ m.origin = 0 ∧
          m.location = run.location ∧ m.rule.isComplete = true ∧ m.rule.lhs = g.start) := by
  obtain ⟨⟨answers, logged⟩, hlogged, ⟨input, h⟩, past, hpast, log, hlog, hx⟩ :=
    logged_session_spec g leo builder forest calls
  have hboth := builder.logged_watches.performAll g leo (forest, []) calls
  rw [hlogged] at hboth
  obtain ⟨⟨_, run⟩, hrun, rfl, hrest⟩ := hboth.exists_ok
  dsimp only at hrest hx
  have hsound : Sound g input input.length run.chart := by
    rw [hrest]
    exact h.sound
  replace hx : log.Explains builder run.chart := by
    rw [hrest]
    exact hx
  refine ⟨answers, run, past, log, hrun, ?_, hpast, fun j set hset s hs => ?_, fun hb hlocation => ?_⟩
  · rw [hlogged, hrest, ← hlog]
  · obtain ⟨l, hl⟩ := (Chart.mem_states_iff hset).1 hs
    exact hx.explained hl
  · have hmoved : ∀ s, Parser.accepting? ⟨g, leo, builder⟩ run = some s → ∃ m, (m, s.node) ∈ log ∧ m.origin = 0 ∧
        m.location = run.location ∧ m.rule.isComplete = true ∧ m.rule.lhs = g.start :=
      fun s hs => exists_move_of_accepting? hsound hx hlocation hs
    constructor
    · unfold root? isAccepted
      cases hs : Parser.accepting? ⟨g, leo, builder⟩ run with
      | none => rfl
      | some s =>
        obtain ⟨m, hm, -⟩ := hmoved s hs
        obtain ⟨forest, hanswer⟩ := hx.answered hm
        rw [Option.bind_some, ← hanswer, hb m forest]
        rfl
    · intro n hn
      obtain ⟨s, hs, hnode⟩ := Option.bind_eq_some_iff.1 hn
      rw [← hnode]
      exact hmoved s hs

end Parser

end ChartParser
