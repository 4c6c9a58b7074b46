import ChartParser.Proofs.Frame.Reduction
import ChartParser.Proofs.Session
/-!
# Parsers with frames follow their grammar

Where every set of frames is closed and every token has been scanned, the frames
of the chart hold all deducible items (`Settled.holds_iff`). Every call keeps this
and succeeds, so a compiled grammar answers as the deducible items say (`follows`).
-/
namespace ChartParser.FrameGraph

variable {graph : FrameGraph} {input : List (List Token)} {tokens : List Token} {run : FrameParse}
  {c c' : FrameChart} {n j i : Nat} {r : DottedRule}

/-! ## Closed sets hold what is deducible -/

/-- The sets up to `n` are closed, the first one begins with the start frame and
every other one with the token moves of the set before it. -/
structure Settled (graph : FrameGraph) (input : List (List Token)) (c : FrameChart) (n : Nat) : Prop where
  start : ⟨graph.startFrame, 0⟩ ∈ FrameChart.items c 0
  scanned : ∀ k < n, ∀ x ∈ FrameChart.items c k, ∀ f t id, graph.frames[x.frame]? = some f → Offers input k t →
    f.tokenMove? t = some id → ⟨id, x.origin⟩ ∈ FrameChart.items c (k + 1)
  closed : ∀ k ≤ n, ∀ x ∈ FrameChart.items c k, PassedOn graph c k x

/-- Growth beyond the settled sets and further tokens keep them settled. -/
theorem Settled.grows {more : List (List Token)} (h : Settled graph input c n) (hg : FrameChart.Grows j c c')
    (hn : n < j) (hlen : n ≤ input.length) : Settled graph (input ++ more) c' n := by
  refine ⟨hg.mem h.start, fun k hk x hx f t id hf ht hid => ?_, fun k hk x hx => ?_⟩
  · rw [hg.items_eq k (by omega)] at hx
    exact hg.mem (h.scanned k hk x hx f t id hf ((Deducible.offers_append (by omega)).1 ht) hid)
  · rw [hg.items_eq k (by omega)] at hx
    exact (h.closed k hk x hx).grows hg (by omega)

/-- A frame that has a rule leads on over the letter after the dot. -/
theorem exists_target {f : Frame} {r r' : DottedRule} {s : Symbol} (hf : f.Completed graph.grammar graph.frames)
    (hr : r ∈ f.rules) (hs : r.postDot? = some s) (ha : r.advance? = some r') :
    ∃ id, f.target? s.letter = some id ∧ ∃ f', graph.frames[id]? = some f' ∧ r' ∈ f'.rules := by
  have hl : r.postDotLetter? = some s.letter := by simp [DottedRule.postDotLetter?, hs]
  cases hid : f.target? s.letter with
  | none => exact absurd hl (hf.stays _ hid r hr)
  | some id =>
    obtain ⟨f', hf', -, hmem⟩ := hf.leads _ id hid
    exact ⟨id, rfl, f', hf', (hmem r').2 (Grammar.subset_skipClosure r' (Frame.mem_kernel.2 ⟨r, hr, hl, ha⟩))⟩

theorem Settled.holds (h : Settled graph input c n) (hv : graph.Valid) (hs : FrameSound graph input n c)
    (hd : Deducible graph.grammar input r i j) (hj : j ≤ n) : Holds graph c j r i := by
  induction hd with
  | @start r hr =>
    obtain ⟨f, hf, -, hmem⟩ := hv.start
    exact ⟨_, h.start, rfl, f, hf, (hmem r).2 (Grammar.subset_skipClosure r hr)⟩
  | @predict r r' i j A _ hA hr' ih =>
    obtain ⟨x, hx, -, f, hf, hr⟩ := ih hj
    rw [← DottedRule.postDotNonTerminal?_eq_some_iff] at hA
    have hmem := List.mem_of_getElem? hf
    have hcompleted := hv.completed f hmem
    by_cases hp : f.predicted = true
    · -- A predicted frame holds its own predictions, and begins here.
      obtain ⟨f', hf', horigin, -⟩ := (hs.sound hx).exists_frame
      cases hf.symm.trans hf'
      exact ⟨x, hx, horigin hp, f, hf, hv.predictClosed f hmem hp r hr A hA r' hr'⟩
    · have hin : r' ∈ graph.grammar.predictions f.rules := Grammar.mem_predictions (.inl hr) hA hr'
      cases hid : f.prediction? with
      | none =>
        rcases hcompleted.settled hid with hp' | hnil
        · exact absurd hp' hp
        · simp [hnil] at hin
      | some id =>
        obtain ⟨f', hf', -, hmem'⟩ := (hcompleted.predicts id hid).2
        exact ⟨_, hs.predicted hx hf hid, rfl, f', hf', (hmem' r').2 hin⟩
  | @scan r r' i j l _ hl ht ha ih =>
    obtain ⟨x, hx, rfl, f, hf, hr⟩ := ih (by omega)
    obtain ⟨id, hid, hin⟩ := exists_target (hv.completed f (List.mem_of_getElem? hf)) hr hl ha
    exact ⟨_, h.scanned j (by omega) x hx f l.tokenType id hf ht hid, rfl, hin⟩
  | @complete r r' d i k j _ hA hd hc ha ih ih' =>
    have hkj := hd.origin_le
    obtain ⟨x, hx, rfl, f, hf, hr⟩ := ih (by omega)
    by_cases hk : k < j
    · -- The set at the origin was final when the completion was passed on.
      obtain ⟨y, hy, rfl, f', hf', hdf⟩ := ih' hj
      have hcompleted := ((hv.completed f' (List.mem_of_getElem? hf')).mem_completed d.lhs).2 ⟨d, hdf, hc, rfl⟩
      obtain ⟨id, hid, hin⟩ := exists_target (hv.completed f (List.mem_of_getElem? hf)) hr hA ha
      exact ⟨_, h.closed j hj y hy hk f' hf' d.lhs hcompleted x hx f id hf hid, rfl, hin⟩
    · -- Completed without input: the moved rule is in the same frame.
      obtain rfl : k = j := by omega
      exact ⟨x, hx, rfl, f, hf, hv.skipClosed f (List.mem_of_getElem? hf) r hr r' (hd.skip?_eq_some hc hA ha)⟩

/-! ## Tracking the input -/

/-- The parse has taken `input`, and its chart is what the input makes of it. -/
structure Tracks (graph : FrameGraph) (input : List (List Token)) (run : FrameParse) : Prop where
  location_eq : run.location = input.length
  size_eq : run.chart.size = input.length + 1
  sound : FrameSound graph input input.length run.chart
  settled : Settled graph input run.chart input.length
  expectations : Expectations.Valid graph.grammar run.expectations

/-- The frames of the chart hold the deducible items. -/
theorem Tracks.holds_iff (hv : graph.Valid) (h : Tracks graph input run) :
    Holds graph run.chart j r i ↔ Deducible graph.grammar input r i j :=
  ⟨fun hh => h.sound.deducible_of_holds hh, fun hd => h.settled.holds hv h.sound hd hd.location_le⟩

/-! ## Starting -/

/-- The start frame is sound in an empty chart. -/
theorem insert_start_spec (hv : graph.Valid) (run : FrameParse) :
    Succeeds (graph.insert { run with chart := .empty, location := 0 } .start 0 ⟨graph.startFrame, 0⟩) fun run₁ =>
      FrameExtends graph [] 0 { run with chart := .empty, location := 0 } run₁ ∧
        ⟨graph.startFrame, 0⟩ ∈ FrameChart.items run₁.chart 0 := by
  have hempty : FrameSound graph [] 0 Chart.empty := by
    have hitems : ∀ k, FrameChart.items Chart.empty k = [] := fun _ => rfl
    exact ⟨Nat.zero_le _, by simp [hitems], by simp [hitems], by simp [hitems]⟩
  have hx : FrameItem.Sound graph [] 0 ⟨graph.startFrame, 0⟩ :=
    .of_leads hv.start (Nat.le_refl 0) .start (by simp)
      (Grammar.skipClosure_induction (fun r hr => .start hr) fun _ _ h hs => h.skip hs)
  exact insert_spec hv { run with chart := .empty, location := 0 } hempty .start hx

theorem startOver_spec (hv : graph.Valid) (he : Expectations.Valid graph.grammar run.expectations) :
    Succeeds (graph.startOver run) (Tracks graph []) := by
  refine (insert_start_spec hv run).bind fun run₁ ⟨hx₁, hstart⟩ => ?_
  have hsize : 0 < run₁.chart.size := FrameChart.lt_size_of_mem hstart
  refine (reduce_spec hv run₁ hx₁.sound hsize).mono fun run₂ ⟨hx₂, hclosed⟩ => ?_
  have hx := hx₁.trans hx₂
  refine ⟨hx.location_eq, ?_, hx.sound, ⟨hx₂.grows.mem hstart, by simp, ?_⟩, ?_⟩
  · have hle := hx.grows.le_size
    have hlt := hx₂.lt_size hsize
    simp only [Chart.size, Chart.empty, List.length_nil] at hle hlt ⊢
    omega
  · intro k hk
    obtain rfl : k = 0 := by simpa using hk
    exact hclosed
  · rw [hx.expectations_eq]
    exact he

theorem start_spec (hv : graph.Valid) : Succeeds graph.start (Tracks graph []) :=
  startOver_spec hv (Expectations.valid_ofGrammar _)

theorem restart_spec (hv : graph.Valid) (h : Tracks graph input run) : Succeeds (graph.restart run) (Tracks graph []) :=
  startOver_spec hv h.expectations

/-! ## Scanning -/

/-- If the frame `x` of set `k` expects a token of type `t`, it has moved over it. -/
def MovedOver (graph : FrameGraph) (c : FrameChart) (k : Nat) (t : TokenType) (x : FrameItem) : Prop :=
  ∀ f id, graph.frames[x.frame]? = some f → f.tokenMove? t = some id → ⟨id, x.origin⟩ ∈ FrameChart.items c (k + 1)

theorem MovedOver.grows {k : Nat} {t : TokenType} {x : FrameItem} (h : MovedOver graph c k t x)
    (hg : FrameChart.Grows j c c') : MovedOver graph c' k t x :=
  fun f id hf hid => hg.mem (h f id hf hid)

theorem scanItem_spec (hv : graph.Valid) (h : FrameSound graph (input ++ [tokens]) (input.length + 1) run.chart)
    {t : Token} (ht : t ∈ tokens) {x : FrameItem} (hx : x ∈ FrameChart.items run.chart input.length) :
    Succeeds (graph.scanItem input.length t.tokenType run x) fun run' =>
      FrameExtends graph (input ++ [tokens]) (input.length + 1) run run' ∧
        MovedOver graph run'.chart input.length t.tokenType x := by
  obtain ⟨f, hf, hget, hmem, hr⟩ := h.frame_eq hx
  unfold scanItem
  refine .bind_ok hget ?_
  cases hid : f.tokenMove? t.tokenType with
  | none =>
    dsimp only
    refine .pure ⟨.refl h, fun f' id hf' hid' => ?_⟩
    cases hf.symm.trans hf'
    cases hid.symm.trans hid'
  | some id =>
    dsimp only
    have hoffers : Offers (input ++ [tokens]) input.length t.tokenType := ⟨tokens, by simp, t, ht, rfl⟩
    have hle : x.origin ≤ input.length + 1 := Nat.le_succ_of_le (h.sound hx).origin_le
    have hplaced : FrameItem.Placed graph (input ++ [tokens]) (input.length + 1) ⟨id, x.origin⟩ :=
      .scan (h.sound hx).placed hf hoffers hid
    have hsound : FrameItem.Sound graph (input ++ [tokens]) (input.length + 1) ⟨id, x.origin⟩ := by
      refine .of_target? (l := .token t.tokenType) (hv.completed f hmem) hid hle hplaced fun r hrk => ?_
      obtain ⟨r₀, hr₀, hl, ha⟩ := Frame.mem_kernel.1 hrk
      obtain ⟨s, hs, hsl⟩ := Option.map_eq_some_iff.1 hl
      obtain ⟨l, rfl, htype⟩ := Symbol.letter_eq_token.1 hsl
      exact .scan (hr r₀ hr₀) hs (htype ▸ hoffers) ha
    refine (insert_spec hv run h .scan hsound).mono fun run' ⟨he, hin⟩ => ⟨he, fun f' id' hf' hid' => ?_⟩
    cases hf.symm.trans hf'
    cases hid.symm.trans hid'
    exact hin

/-- The tokens have moved what expected them, and the parse has gone on. -/
theorem scan_all_spec (hv : graph.Valid) (h : Tracks graph input run) :
    Succeeds (tokens.foldlM (graph.scan run.location) run) fun run' =>
      FrameExtends graph (input ++ [tokens]) (input.length + 1) run run' ∧
        ∀ t ∈ tokens, ∀ x ∈ FrameChart.items run.chart input.length,
          MovedOver graph run'.chart input.length t.tokenType x := by
  have hsize := h.size_eq
  have hsound : FrameSound graph (input ++ [tokens]) (input.length + 1) run.chart :=
    h.sound.extend_input (by omega)
  rw [h.location_eq]
  refine Succeeds.foldlM .trans .right (fun he hd x hx => (hd x hx).grows he.grows) (.refl hsound) fun run₁ he t ht => ?_
  have hlt : input.length < run₁.chart.size := he.lt_size (by omega)
  obtain ⟨q, -, hget, hq⟩ := FrameChart.exists_queue hlt
  unfold scan
  refine .bind_ok hget ?_
  rw [hq]
  have hitems := he.grows.items_eq input.length (by omega)
  rw [hitems]
  refine Succeeds.foldlM .trans .right (fun he hd => hd.grows he.grows) he.right fun run₂ he₂ x hx => ?_
  exact scanItem_spec hv he₂.sound ht ((he.trans he₂).grows.mem hx)

/-- A token that no rule expects changes nothing. -/
theorem scan_eq_self (hv : graph.Valid) (h : Tracks graph input run) {t : Token}
    (ht : ¬Expects graph.grammar input t.tokenType) : graph.scan input.length run t = .ok run := by
  have hsize := h.size_eq
  obtain ⟨q, -, hget, hq⟩ := FrameChart.exists_queue (show input.length < run.chart.size by omega)
  have hno : ∀ x ∈ q.toList, graph.scanItem input.length t.tokenType run x = .ok run := by
    intro x hx
    rw [hq] at hx
    obtain ⟨f, hf, hframe, hmem, hr⟩ := h.sound.frame_eq hx
    have hnone : f.tokenMove? t.tokenType = none := by
      cases hid : f.tokenMove? t.tokenType with
      | none => rfl
      | some id =>
        obtain ⟨r, hrf, hl⟩ := (hv.completed f hmem).waits (.token t.tokenType) id hid
        obtain ⟨s, hs, hsl⟩ := Option.map_eq_some_iff.1 hl
        obtain ⟨l, rfl, htype⟩ := Symbol.letter_eq_token.1 hsl
        exact absurd ⟨r, x.origin, l, hr r hrf, hs, htype⟩ ht
    simp only [scanItem, hframe, bind, Except.bind, hnone]
    rfl
  simp only [scan, hget, bind, Except.bind]
  exact foldlM_eq_self hno

/-! ## Taking tokens -/

theorem offer_spec_of_continues (hv : graph.Valid) (h : Tracks graph input run)
    (hc : Continues graph.grammar input tokens) :
    Succeeds (graph.offer run tokens) fun x => x.1 = true ∧ Tracks graph (input ++ [tokens]) x.2 ∧
      FrameChart.Grows (input.length + 1) run.chart x.2.chart := by
  have hsize := h.size_eq
  have hlen : (input ++ [tokens]).length = input.length + 1 := by simp
  refine (scan_all_spec hv h).bind fun run₁ ⟨he₁, hmoved⟩ => ?_
  -- What expects one of the tokens is in the chart, and so is the next set.
  have hnext : input.length + 1 < run₁.chart.size := by
    obtain ⟨t, ht, r, i, l, hd, hl, htype⟩ := hc
    obtain ⟨x, hx, -, f, hf, hr⟩ := (h.holds_iff hv).2 hd
    obtain ⟨r', hr'⟩ := DottedRule.exists_advance hl
    obtain ⟨id, hid, -⟩ := exists_target (hv.completed f (List.mem_of_getElem? hf)) hr hl hr'
    refine FrameChart.lt_size_of_mem (hmoved t ht x hx f id hf ?_)
    rw [← htype]
    exact hid
  dsimp only
  rw [he₁.location_eq, h.location_eq, if_neg (by omega)]
  have hreduce := reduce_spec hv { run₁ with location := input.length + 1 } he₁.sound hnext
  refine hreduce.bind fun run₂ ⟨he₂, hclosed⟩ => ?_
  obtain ⟨q, -, hget, -⟩ := FrameChart.exists_queue (he₂.lt_size hnext)
  have hg : FrameChart.Grows (input.length + 1) run.chart run₂.chart := he₁.grows.trans he₂.grows
  refine .bind_ok hget (.pure ⟨rfl, ?_, hg⟩)
  have hsettled : Settled graph (input ++ [tokens]) run₂.chart input.length :=
    h.settled.grows hg (Nat.lt_succ_self _) (Nat.le_refl _)
  refine ⟨by rw [hlen]; exact he₂.location_eq, ?_, by rw [hlen]; exact he₂.sound, ?_, ?_⟩
  · have := hg.le_size
    have := he₂.lt_size hnext
    simp only [hlen]
    omega
  · rw [hlen]
    refine ⟨hsettled.start, fun k hk x hx f t id hf ht hid => ?_, fun k hk => ?_⟩
    · by_cases hlt : k < input.length
      · exact hsettled.scanned k hlt x hx f t id hf ht hid
      · obtain rfl : k = input.length := by omega
        obtain ⟨tokens', htokens, t', ht', rfl⟩ := ht
        obtain rfl : tokens = tokens' := by simpa using htokens
        rw [hg.items_eq _ (by omega)] at hx
        exact he₂.grows.mem (hmoved t' ht' x hx f id hf hid)
    · by_cases hlt : k ≤ input.length
      · exact hsettled.closed k hlt
      · obtain rfl : k = input.length + 1 := by omega
        exact hclosed
  · exact (he₂.expectations_eq.trans he₁.expectations_eq) ▸ h.expectations

/-- Tokens that no rule expects are rejected, and nothing changes but the journal. -/
theorem offer_eq_of_not_continues (hv : graph.Valid) (h : Tracks graph input run)
    (hc : ¬Continues graph.grammar input tokens) : graph.offer run tokens =
      .ok (false, { run with journal := run.journal.push (.rejected run.location tokens.length) }) := by
  have hscan : tokens.foldlM (graph.scan run.location) run = .ok run := by
    refine foldlM_eq_self fun t ht => ?_
    rw [h.location_eq]
    exact scan_eq_self hv h fun hx => hc ⟨t, ht, hx⟩
  have hsize : run.chart.size = run.location + 1 := by rw [h.size_eq, h.location_eq]
  simp only [offer, hscan, bind, Except.bind, hsize, Nat.le_refl, if_true]
  rfl

theorem offer_spec_of_not_continues (hv : graph.Valid) (h : Tracks graph input run)
    (hc : ¬Continues graph.grammar input tokens) :
    Succeeds (graph.offer run tokens) fun x => x.1 = false ∧ Tracks graph input x.2 :=
  ⟨_, offer_eq_of_not_continues hv h hc, rfl, h.location_eq, h.size_eq, h.sound, h.settled, h.expectations⟩

/-! ## Asking -/

theorem isAccepted_iff (hv : graph.Valid) (h : Tracks graph input run) :
    graph.isAccepted run = true ↔ Completes graph.grammar input := by
  have hsize := h.size_eq
  obtain ⟨q, hq, -, hitems⟩ := FrameChart.exists_queue (show input.length < run.chart.size by omega)
  simp only [isAccepted, h.location_eq, hq, Option.any_some, hitems, List.any_eq_true, accepts, Bool.and_eq_true,
    decide_eq_true_eq, Option.any_eq_true]
  constructor
  · rintro ⟨x, hx, hi, f, hf, hs⟩
    obtain ⟨r, hr, hc, hlhs⟩ := ((hv.completed f (List.mem_of_getElem? hf)).mem_completed _).1 hs
    exact ⟨r, (h.holds_iff hv).1 ⟨x, hx, hi, f, hf, hr⟩, hc, hlhs⟩
  · rintro ⟨r, hd, hc, hlhs⟩
    obtain ⟨x, hx, hi, f, hf, hr⟩ := (h.holds_iff hv).2 hd
    exact ⟨x, hx, hi, f, hf, ((hv.completed f (List.mem_of_getElem? hf)).mem_completed _).2 ⟨r, hr, hc, hlhs⟩⟩

theorem expected_spec (hv : graph.Valid) (h : Tracks graph input run) :
    Succeeds (graph.expected run) fun x => x.1 = graph.grammar.expectedAfter input ∧ Tracks graph input x.2 := by
  have hsize := h.size_eq
  obtain ⟨q, hq, -, hitems⟩ := FrameChart.exists_queue (show input.length < run.chart.size by omega)
  have hmapM : Succeeds ((FrameChart.items run.chart input.length).mapM fun x => graph.frame x.frame) fun frames =>
      ∀ f, f ∈ frames ↔ ∃ x ∈ FrameChart.items run.chart input.length, graph.frame x.frame = .ok f :=
    .mapM fun x hx => ⟨_, (h.sound.frame_eq hx).choose_spec.2.1⟩
  unfold expected
  simp only [h.location_eq, hq, Option.map_some, Option.getD_some, hitems]
  refine hmapM.bind fun frames hframes => ?_
  have hids : ∀ id, id ∈ frames.flatMap (·.lexerRuleIds) ↔ ExpectsRule graph.grammar input id := by
    intro id
    simp only [List.mem_flatMap, hframes, frame, fetch_eq_ok_iff]
    constructor
    · rintro ⟨f, ⟨x, hx, hf⟩, hid⟩
      obtain ⟨r, hr, hid⟩ := ((hv.completed f (List.mem_of_getElem? hf)).mem_lexerRuleIds id).1 hid
      exact ⟨r, x.origin, (h.holds_iff hv).1 ⟨x, hx, rfl, f, hf, hr⟩, hid⟩
    · rintro ⟨r, i, hd, hid⟩
      obtain ⟨x, hx, -, f, hf, hr⟩ := (h.holds_iff hv).2 hd
      exact ⟨f, ⟨x, hx, hf⟩, ((hv.completed f (List.mem_of_getElem? hf)).mem_lexerRuleIds id).2 ⟨r, hr, hid⟩⟩
  have hlt : ∀ id ∈ frames.flatMap (·.lexerRuleIds), id < graph.grammar.lexerRules.length := by
    intro id hid
    obtain ⟨_, _, -, hr⟩ := (hids id).1 hid
    exact Grammar.lt_of_postDotLexerRuleId? hr
  refine (Expectations.collect_spec h.expectations hlt).bind fun x ⟨hx, hvalid⟩ => .pure ⟨?_, ?_⟩
  · rw [hx]
    exact Grammar.rulesAt_eq_expectedAfter hids
  · exact ⟨rfl, h.size_eq, h.sound, h.settled, hvalid⟩

theorem follows (hv : graph.Valid) : Follows graph graph.grammar (Tracks graph) where
  location_eq h := h.location_eq
  isAccepted_iff h := isAccepted_iff hv h
  offer_spec {input _} h tokens := by
    by_cases hc : Continues graph.grammar input tokens
    · exact (offer_spec_of_continues hv h hc).mono fun x ⟨hx, ht, _⟩ => .inl ⟨hx, hc, ht⟩
    · exact (offer_spec_of_not_continues hv h hc).mono fun x ⟨hx, ht⟩ => .inr ⟨hx, hc, ht⟩
  expected_spec h := expected_spec hv h
  restart_spec h := restart_spec hv h

theorem session_spec (hv : graph.Valid) (calls : List Call) :
    Succeeds (do Recognizer.performAll graph (← graph.start) calls) fun x => ∃ input, Tracks graph input x.2 :=
  (follows hv).session_spec (start_spec hv) calls

end ChartParser.FrameGraph
