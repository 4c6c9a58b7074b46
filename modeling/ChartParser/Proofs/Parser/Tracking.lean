import ChartParser.Parser.Run
import ChartParser.Proofs.Parser.Completeness
import ChartParser.Proofs.Session
/-!
# Chart parsers follow their grammar

Between two calls the chart of a parse is sound and settled for the input taken
so far (`Tracks`). Every call keeps this and succeeds, so the parser answers as
the deducible items say, with or without memoized paths (`follows`).
-/
namespace ChartParser

/-- Soundness does not depend on what comes later. -/
theorem Sound.extend_input {g : Grammar} {input more : List (List Token)} {j k : Nat} {c : Chart ItemSet}
    (h : Sound g input j c) (hjk : j ≤ k) (hk : k ≤ c.size) : Sound g (input ++ more) k c := by
  refine ⟨hk, h.lane_ok, h.nodup, fun hs hkind => ?_, fun hs hkind => ?_⟩
  · have hd := h.deducible hs hkind
    exact (Deducible.append_iff hd.location_le).2 hd
  · obtain ⟨hlt, htop⟩ := h.memo hs hkind
    exact ⟨by omega, htop⟩

theorem State.expects_iff {s : State} {t : TokenType} :
    s.expects t = true ↔ ∃ l, s.rule.postDot? = some (.terminal l) ∧ l.tokenType = t := by
  simp [expects, Option.any_eq_true, DottedRule.postDotLexerRule?_eq_some_iff]

/-- The parse without its chart, at the beginning of the input. -/
def Parse.emptied {σ : Type} (run : Parse σ) : Parse σ := { run with chart := .empty, location := 0, memoized := 0 }

namespace Parser

variable {σ : Type} {p : Parser σ} {input : List (List Token)} {tokens : List Token} {run : Parse σ}

/-- The parse has taken `input`, and its chart is what the input makes of it. -/
structure Tracks (p : Parser σ) (input : List (List Token)) (run : Parse σ) : Prop where
  location_eq : run.location = input.length
  size_eq : run.chart.size = input.length + 1
  sound : Sound p.grammar input input.length run.chart
  settled : Settled p input run.chart input.length
  expectations : Expectations.Valid p.grammar run.expectations

namespace Tracks

variable {r : DottedRule} {i j : Nat}

theorem holds_iff_of_postDot? (h : Tracks p input run) {s : Symbol} (hr : r.postDot? = some s) :
    run.chart.Holds j r i ↔ Deducible p.grammar input r i j := by
  constructor
  · exact h.sound.deducible_of_holds
  · intro hd
    exact holds_of_postDot? (h.settled.holds_or_skipped h.sound hd hd.location_le) hr

/-- Start rules that span everything are never passed over. -/
theorem holds_iff_of_start (h : Tracks p input run) (hr : r.lhs = p.grammar.start) :
    run.chart.Holds j r 0 ↔ Deducible p.grammar input r 0 j := by
  constructor
  · exact h.sound.deducible_of_holds
  · intro hd
    rcases h.settled.holds_or_skipped h.sound hd hd.location_le with hh | hsk
    · exact hh
    · exact absurd ⟨rfl, hr⟩ hsk.not_start

/-- Without memoized paths nothing is passed over. -/
theorem holds_iff_of_plain (h : Tracks p input run) (hleo : p.leo = false) :
    run.chart.Holds j r i ↔ Deducible p.grammar input r i j := by
  constructor
  · exact h.sound.deducible_of_holds
  · intro hd
    rcases h.settled.holds_or_skipped h.sound hd hd.location_le with hh | hsk
    · exact hh
    · obtain ⟨t, ht, -⟩ := hsk.exists_top
      simp [path?, hleo] at ht

end Tracks

/-! ## Starting -/

theorem sound_empty (g : Grammar) : Sound g [] 0 Chart.empty := by
  have hlane : ∀ k l, Chart.empty.lane k l = [] := fun _ _ => rfl
  exact ⟨Nat.zero_le _, by simp [hlane], by simp [hlane], by simp [hlane], by simp [hlane]⟩

/-- The start symbol has a production, so there is a set afterwards. -/
theorem begin_start_spec (p : Parser σ) (run : Parse σ) :
    Succeeds (run.emptied.begin .start 0 (p.grammar.initialRules p.grammar.start)) fun run₁ =>
      Extends p [] 0 run.emptied run₁ ∧ (∀ r ∈ p.grammar.initialRules p.grammar.start, run₁.chart.Holds 0 r 0) ∧
        0 < run₁.chart.size := by
  have hbegin := Parse.begin_spec (p := p) run.emptied (sound_empty p.grammar) .start fun r hr => .start hr
  refine hbegin.mono fun run₁ ⟨hx₁, hstart⟩ => ⟨hx₁, hstart, ?_⟩
  obtain ⟨q, hq, hlhs⟩ := defines_iff.1 p.grammar.start_defined
  obtain ⟨n, hn⟩ := List.mem_iff_getElem?.1 hq
  exact (hstart _ (Grammar.mem_initialRules.2 ⟨n, q, hn, hlhs, rfl⟩)).lt_size

theorem startOver_spec (he : Expectations.Valid p.grammar run.expectations) :
    Succeeds (p.startOver run) fun run' => Tracks p [] run' ∧ Steps p [] 0 run.emptied run' := by
  refine (begin_start_spec p run).bind fun run₁ ⟨hx₁, hstart, hsize⟩ => ?_
  refine (reduce_spec run₁ hx₁.sound hsize).mono fun run₂ ⟨hx₂, hclosed⟩ => ?_
  have hx := hx₁.trans hx₂
  refine ⟨⟨hx.location_eq, ?_, hx.sound, ⟨fun r hr => hx₂.grows.holds (hstart r hr), by simp, ?_⟩, ?_⟩, hx.steps⟩
  · have hle := hx.grows.le_size
    have hlt := hx₂.lt_size hsize
    simp only [Parse.emptied, Chart.size, Chart.empty, List.length_nil] at hle hlt ⊢
    omega
  · intro k hk
    obtain rfl : k = 0 := by simpa using hk
    exact hclosed
  · rw [hx.expectations_eq]
    exact he

theorem start_spec (p : Parser σ) (forest : σ) : Succeeds (p.start forest) (Tracks p []) :=
  (startOver_spec (Expectations.valid_ofGrammar _)).mono fun _ h => h.1

theorem restart_spec (h : Tracks p input run) : Succeeds (p.restart run) fun run' =>
    Tracks p [] run' ∧ Steps p [] 0 { run with journal := run.journal.push (.restarted run.location) }.emptied run' :=
  startOver_spec h.expectations

/-! ## Scanning -/

/-- If the state `s` of set `k` expects a token of type `t`, it has moved over it. -/
def MovedOver (c : Chart ItemSet) (k : Nat) (t : TokenType) (s : State) : Prop :=
  s.expects t = true → ∀ r, s.rule.advance? = some r → c.Holds (k + 1) r s.origin

theorem MovedOver.grows {c c' : Chart ItemSet} {j k : Nat} {t : TokenType} {s : State} (h : MovedOver c k t s)
    (hg : c.Grows j c') : MovedOver c' k t s :=
  fun hx r hr => hg.holds (h hx r hr)

theorem scan_spec (h : Sound p.grammar (input ++ [tokens]) (input.length + 1) run.chart)
    (hsize : input.length < run.chart.size) {t : Token} (ht : t ∈ tokens) :
    Succeeds (p.scan input.length run t) fun run' =>
      Extends p (input ++ [tokens]) (input.length + 1) run run' ∧
        ∀ s ∈ run'.chart.lane input.length .scans, MovedOver run'.chart input.length t.tokenType s := by
  obtain ⟨set, -, hget, hlane⟩ := Chart.exists_set hsize
  have hscans : set.scans.toList = run.chart.lane input.length .scans := hlane .scans
  unfold scan
  refine .bind_ok hget ?_
  rw [hscans]
  have hfold : Succeeds ((run.chart.lane input.length .scans).foldlM (p.scanState input.length t) run) fun run' =>
      Extends p (input ++ [tokens]) (input.length + 1) run run' ∧
        ∀ s ∈ run.chart.lane input.length .scans, MovedOver run'.chart input.length t.tokenType s := by
    refine Succeeds.foldlM .trans .right (fun he hd => hd.grows he.grows) (.refl h) fun run₁ he s hs => ?_
    unfold scanState
    split
    · rename_i hx
      have hs₁ := (he.grows.lane_le input.length .scans).subset hs
      have hm : ∀ r, s.rule.advance? = some r → Warranted p (input ++ [tokens]) run₁.chart (input.length + 1)
          ⟨r, s.origin, input.length + 1, s.node, .token t⟩ :=
        fun r hr => .scan hs₁ (by simp) ht hx hr
      exact (advance_spec he.sound .scan hm).mono fun run₂ ⟨he₂, hnew⟩ => ⟨he₂, fun _ => hnew⟩
    · rename_i hx
      exact ⟨run₁, rfl, he.right, fun hx' => absurd hx' hx⟩
  refine hfold.mono fun run' ⟨he, hall⟩ => ⟨he, fun s hs => hall s ?_⟩
  rwa [he.grows.lane_eq _ _ (by omega) (by simp)] at hs

/-- A token that no state expects changes nothing. -/
theorem scan_eq_self {k : Nat} (hk : k < run.chart.size) {t : Token}
    (ht : ∀ s ∈ run.chart.lane k .scans, s.expects t.tokenType = false) : p.scan k run t = .ok run := by
  obtain ⟨set, -, hget, hlane⟩ := Chart.exists_set hk
  have hno : ∀ s ∈ set.scans.toList, p.scanState k t run s = .ok run := by
    intro s hs
    have hmem : s ∈ run.chart.lane k .scans := hlane .scans ▸ hs
    rw [scanState, ht s hmem]
    rfl
  simp only [scan, hget, bind, Except.bind]
  exact foldlM_eq_self hno

/-- The tokens have moved what expected them, and the parse has gone on. -/
theorem scan_all_spec (h : Tracks p input run) :
    Succeeds (tokens.foldlM (p.scan run.location) run) fun run' =>
      Extends p (input ++ [tokens]) (input.length + 1) run run' ∧
        ∀ t ∈ tokens, ∀ s ∈ run.chart.lane input.length .scans, MovedOver run'.chart input.length t.tokenType s := by
  have hsize := h.size_eq
  have hsound : Sound p.grammar (input ++ [tokens]) (input.length + 1) run.chart :=
    h.sound.extend_input (by omega) (by omega)
  rw [h.location_eq]
  refine Succeeds.foldlM .trans .right (fun he hd s hs => (hd s hs).grows he.grows) (.refl hsound) fun run₁ he t ht => ?_
  refine (scan_spec he.sound (he.lt_size (by omega)) ht).mono fun run₂ ⟨he₂, hall⟩ => ⟨he₂, fun s hs => hall s ?_⟩
  rwa [(he.trans he₂).grows.lane_eq _ _ (by omega) (by simp)]

/-! ## Taking tokens -/

theorem offer_spec_of_continues (h : Tracks p input run) (hc : Continues p.grammar input tokens) :
    Succeeds (p.offer run tokens) fun x => x.1 = true ∧ Tracks p (input ++ [tokens]) x.2 ∧
      Steps p (input ++ [tokens]) (input.length + 1) run x.2 := by
  have hsize := h.size_eq
  have hlen : (input ++ [tokens]).length = input.length + 1 := by simp
  refine (scan_all_spec h).bind fun run₁ ⟨he₁, hmoved⟩ => ?_
  -- What expects one of the tokens is in the chart, and so is the next set.
  have hnext : input.length + 1 < run₁.chart.size := by
    obtain ⟨t, ht, r, i, l, hd, hl, htype⟩ := hc
    have hr := (h.holds_iff_of_postDot? hl).2 hd
    obtain ⟨s, hs, rfl, rfl⟩ := h.sound.mem_lane hr (Item.lane_eq_scans_iff.2 ⟨rfl, l, hl⟩)
    obtain ⟨r', hr'⟩ := DottedRule.exists_advance hl
    exact (hmoved t ht s hs (State.expects_iff.2 ⟨l, hl, htype⟩) r' hr').lt_size
  dsimp only
  rw [he₁.location_eq, h.location_eq, if_neg (by omega)]
  have hreduce := reduce_spec { run₁ with location := input.length + 1 } he₁.sound hnext
  refine hreduce.bind fun run₂ ⟨he₂, hclosed⟩ => ?_
  obtain ⟨set, -, hget, -⟩ := Chart.exists_set (he₂.lt_size hnext)
  have hmove : Step p (input ++ [tokens]) (input.length + 1) run₁ { run₁ with location := input.length + 1 } :=
    .note rfl rfl rfl rfl
  refine .bind_ok hget (.pure ⟨rfl, ?_, (he₁.steps.tail hmove).trans (he₂.steps.tail (.note rfl rfl rfl rfl))⟩)
  have hg := he₁.grows.trans he₂.grows
  have hsettled : Settled p (input ++ [tokens]) run₂.chart input.length :=
    h.settled.grows hg (Nat.lt_succ_self _) (Nat.le_refl _)
  refine ⟨by rw [hlen]; exact he₂.location_eq, ?_, by rw [hlen]; exact he₂.sound, ?_, ?_⟩
  · have := hg.le_size
    have := he₂.lt_size hnext
    simp only [hlen]
    omega
  · rw [hlen]
    refine ⟨hsettled.start, fun k hk s hs l r hl ht hr => ?_, fun k hk => ?_⟩
    · by_cases hlt : k < input.length
      · exact hsettled.scanned k hlt s hs l r hl ht hr
      · obtain rfl : k = input.length := by omega
        obtain ⟨tokens', htokens, t, ht, htype⟩ := ht
        obtain rfl : tokens = tokens' := by simpa using htokens
        rw [hg.lane_eq _ _ (by omega) (by simp)] at hs
        exact he₂.grows.holds (hmoved t ht s hs (State.expects_iff.2 ⟨l, hl, htype.symm⟩) r hr)
    · by_cases hlt : k ≤ input.length
      · exact hsettled.closed k hlt
      · obtain rfl : k = input.length + 1 := by omega
        exact hclosed
  · exact (he₂.expectations_eq.trans he₁.expectations_eq) ▸ h.expectations

/-- Tokens that no state expects are rejected, and nothing changes but the journal. -/
theorem offer_eq_of_unexpected (hsize : run.chart.size = run.location + 1)
    (hno : ∀ t ∈ tokens, ∀ s ∈ run.chart.lane run.location .scans, s.expects t.tokenType = false) :
    p.offer run tokens =
      .ok (false, { run with journal := run.journal.push (.rejected run.location tokens.length) }) := by
  have hscan : tokens.foldlM (p.scan run.location) run = .ok run :=
    foldlM_eq_self fun t ht => scan_eq_self (by omega) (hno t ht)
  simp only [offer, hscan, bind, Except.bind, hsize, Nat.le_refl, if_true]
  rfl

/-- What does not continue the input, no state expects. -/
theorem Tracks.unexpected (h : Tracks p input run) (hc : ¬Continues p.grammar input tokens) :
    ∀ t ∈ tokens, ∀ s ∈ run.chart.lane run.location .scans, s.expects t.tokenType = false := by
  intro t ht s hs
  rw [h.location_eq] at hs
  have hkind := (Item.lane_eq_scans_iff.1 (h.sound.lane_ok hs)).1
  by_contra hx
  obtain ⟨l, hl, htype⟩ := State.expects_iff.1 (by simpa using hx)
  exact hc ⟨t, ht, s.rule, s.origin, l, h.sound.deducible hs hkind, hl, htype⟩

theorem offer_spec_of_not_continues (h : Tracks p input run) (hc : ¬Continues p.grammar input tokens) :
    Succeeds (p.offer run tokens) fun x => x.1 = false ∧ Tracks p input x.2 := by
  have hsize : run.chart.size = run.location + 1 := by rw [h.size_eq, h.location_eq]
  exact ⟨_, offer_eq_of_unexpected hsize (h.unexpected hc), rfl, h.location_eq, h.size_eq, h.sound, h.settled,
    h.expectations⟩

/-! ## Asking -/

theorem isAccepted_iff (h : Tracks p input run) : p.isAccepted run = true ↔ Completes p.grammar input := by
  have hsize := h.size_eq
  obtain ⟨set, hset, -, hlane⟩ := Chart.exists_set (show input.length < run.chart.size by omega)
  have hcompletions : set.completions.toList = run.chart.lane input.length .completions := hlane .completions
  simp only [isAccepted, accepting?, h.location_eq, hset, hcompletions, List.find?_isSome, Bool.and_eq_true,
    decide_eq_true_eq]
  constructor
  · rintro ⟨s, hs, hi, hlhs⟩
    obtain ⟨hkind, hc⟩ := Item.lane_eq_completions_iff.1 (h.sound.lane_ok hs)
    exact ⟨s.rule, hi ▸ h.sound.deducible hs hkind, hc, hlhs⟩
  · rintro ⟨r, hd, hc, hlhs⟩
    have hr := (h.holds_iff_of_start hlhs).2 hd
    obtain ⟨s, hs, rfl, hi⟩ := h.sound.mem_lane hr (Item.lane_eq_completions_iff.2 ⟨rfl, hc⟩)
    exact ⟨s, hs, hi, hlhs⟩

theorem mem_expectedIds_iff (h : Tracks p input run) {id : LexerRuleId} :
    id ∈ p.expectedIds run ↔ ExpectsRule p.grammar input id := by
  have hsize := h.size_eq
  obtain ⟨set, hset, -, hlane⟩ := Chart.exists_set (show input.length < run.chart.size by omega)
  have hscans : set.scans.toList = run.chart.lane input.length .scans := hlane .scans
  simp only [expectedIds, h.location_eq, hset, hscans, List.mem_filterMap]
  constructor
  · rintro ⟨s, hs, hid⟩
    have hkind := (Item.lane_eq_scans_iff.1 (h.sound.lane_ok hs)).1
    exact ⟨s.rule, s.origin, h.sound.deducible hs hkind, hid⟩
  · rintro ⟨r, i, hd, hid⟩
    obtain ⟨l, hl, -⟩ := Option.bind_eq_some_iff.1 hid
    rw [DottedRule.postDotLexerRule?_eq_some_iff] at hl
    have hr := (h.holds_iff_of_postDot? hl).2 hd
    obtain ⟨s, hs, rfl, rfl⟩ := h.sound.mem_lane hr (Item.lane_eq_scans_iff.2 ⟨rfl, l, hl⟩)
    exact ⟨s, hs, hid⟩

theorem expected_spec (h : Tracks p input run) :
    Succeeds (p.expected run) fun x => x.1 = p.grammar.expectedAfter input ∧ Tracks p input x.2 := by
  have hids : ∀ id ∈ p.expectedIds run, id < p.grammar.lexerRules.length := by
    intro id hid
    obtain ⟨_, _, -, hr⟩ := (mem_expectedIds_iff h).1 hid
    exact Grammar.lt_of_postDotLexerRuleId? hr
  refine (Expectations.collect_spec h.expectations hids).bind fun x ⟨hx, hv⟩ => .pure ⟨?_, ?_⟩
  · rw [hx]
    exact Grammar.rulesAt_eq_expectedAfter fun id => mem_expectedIds_iff h
  · exact ⟨h.location_eq, h.size_eq, h.sound, h.settled, hv⟩

/-- Unless it starts over, a call consists of steps at the location it leads to. -/
theorem Tracks.perform_steps (h : Tracks p input run) {call : Call} (hcall : call ≠ .restart) :
    Succeeds (Recognizer.perform p run call) fun x => ∃ input', Tracks p input' x.2 ∧
      Sound p.grammar input' input'.length run.chart ∧ Steps p input' input'.length run x.2 := by
  cases call with
  | offer tokens =>
    by_cases hc : Continues p.grammar input tokens
    · refine (offer_spec_of_continues h hc).bind fun x ⟨_, ht, hsteps⟩ => .pure ⟨input ++ [tokens], ht, ?_, ?_⟩
      · have hsize := h.size_eq
        exact h.sound.extend_input (by simp) (by simp [hsize])
      · rw [List.length_append]
        exact hsteps
    · obtain ⟨x, hx, -, ht⟩ := offer_spec_of_not_continues h hc
      have hsize : run.chart.size = run.location + 1 := by rw [h.size_eq, h.location_eq]
      cases hx.symm.trans (offer_eq_of_unexpected hsize (h.unexpected hc))
      exact .bind_ok hx (.pure ⟨input, ht, h.sound, .single (.note rfl rfl rfl rfl)⟩)
  | expected =>
    obtain ⟨x, hx, -, ht⟩ := expected_spec h
    obtain ⟨y, -, hy⟩ := bind_eq_ok_iff.1 hx
    cases hy
    exact .bind_ok hx (.pure ⟨input, ht, h.sound, .single (.note rfl rfl rfl rfl)⟩)
  | restart => exact absurd rfl hcall

/-- With or without memoized paths, whatever the forest builder does. -/
theorem follows (p : Parser σ) : Follows p p.grammar (Tracks p) where
  location_eq h := h.location_eq
  isAccepted_iff h := isAccepted_iff h
  offer_spec {input _} h tokens := by
    by_cases hc : Continues p.grammar input tokens
    · exact (offer_spec_of_continues h hc).mono fun x ⟨hx, ht, _⟩ => .inl ⟨hx, hc, ht⟩
    · exact (offer_spec_of_not_continues h hc).mono fun x ⟨hx, ht⟩ => .inr ⟨hx, hc, ht⟩
  expected_spec h := expected_spec h
  restart_spec h := (restart_spec h).mono fun _ h => h.1

theorem session_spec (p : Parser σ) (forest : σ) (calls : List Call) :
    Succeeds (do Recognizer.performAll p (← p.start forest) calls) fun x => ∃ input, Tracks p input x.2 :=
  (follows p).session_spec (start_spec p forest) calls

end Parser

end ChartParser
