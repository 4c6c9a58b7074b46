import ChartParser.Proofs.Deduction.Choices
import ChartParser.Proofs.Parser.Invariant
/-!
# What is in a chart

Which items get into the set at a location is told by rules that do not speak of the
order in which they come (`Entered`): those of deduction, but for completions that
have a path, which lead to its top and nowhere else. Paths belong to earlier sets. A
chart holds the items that the rules give (`Tracks.holds_iff`), and memoizes the paths
that lie on a completion's way (`Tracks.mem_transitions_iff`). So two charts made of the
same choices have the same items in every lane (`Tracks.items_perm`).
-/
namespace ChartParser

/-- The item gets into the set at the last location, where `path A k` is what the
completion of `A`, begun in set `k`, leads to at once. -/
inductive Entered (g : Grammar) (path : NonTerminal → Nat → Option (DottedRule × Nat)) (input : List (List Token)) :
    DottedRule → Nat → Nat → Prop
  | start {r : DottedRule} (hr : r ∈ g.initialRules g.start) : Entered g path input r 0 0
  | predict {r r' : DottedRule} {i j : Nat} {A : NonTerminal} (h : Entered g path input r i j)
    (hA : r.postDot? = some (.nonTerminal A)) (hr : r' ∈ g.initialRules A) : Entered g path input r' j j
  | skip {r r' : DottedRule} {i j : Nat} {A : NonTerminal} (h : Entered g path input r i j)
    (hA : r.postDot? = some (.nonTerminal A)) (hn : g.isNullable A = true) (hr : r.advance? = some r') :
    Entered g path input r' i j
  | scan {r r' : DottedRule} {i j : Nat} {l : LexerRule} (h : Entered g path input r i j)
    (hl : r.postDot? = some (.terminal l)) (ht : Offers input j l.tokenType) (hr : r.advance? = some r') :
    Entered g path input r' i (j + 1)
  | complete {d r r' : DottedRule} {i k j : Nat} (hd : Entered g path input d k j) (hc : d.isComplete = true)
    (hk : k < j) (hpath : path d.lhs k = none) (h : Entered g path input r i k)
    (hA : r.postDot? = some (.nonTerminal d.lhs)) (hr : r.advance? = some r') : Entered g path input r' i j
  | jump {d r : DottedRule} {i k j : Nat} (hd : Entered g path input d k j) (hc : d.isComplete = true) (hk : k < j)
    (hpath : path d.lhs k = some (r, i)) : Entered g path input r i j

namespace Entered

variable {g : Grammar} {path path' : NonTerminal → Nat → Option (DottedRule × Nat)} {input input' : List (List Token)}
  {r : DottedRule} {i j : Nat}

theorem location_le (h : Entered g path input r i j) : j ≤ input.length := by
  induction h with
  | start => exact Nat.zero_le _
  | predict _ _ _ ih => exact ih
  | skip _ _ _ _ ih => exact ih
  | scan _ _ ht => exact ht.lt_length
  | complete _ _ _ _ _ _ _ ih => exact ih
  | jump _ _ _ _ ih => exact ih

/-- Only the paths of sets before the location matter, and the choices. -/
theorem congr {n : Nat} (hpath : ∀ k < n, ∀ A, path A k = path' A k)
    (hin : ∀ k t, Offers input k t → Offers input' k t) (h : Entered g path input r i j) (hj : j ≤ n) :
    Entered g path' input' r i j := by
  induction h with
  | start hr => exact .start hr
  | predict _ hA hr ih => exact .predict (ih hj) hA hr
  | skip _ hA hn hr ih => exact .skip (ih hj) hA hn hr
  | scan _ hl ht hr ih => exact .scan (ih (Nat.le_of_succ_le hj)) hl (hin _ _ ht) hr
  | complete _ hc hk hnone _ hA hr ihd ih =>
    have hkn := Nat.lt_of_lt_of_le hk hj
    exact .complete (ihd hj) hc hk (hpath _ hkn _ ▸ hnone) (ih (Nat.le_of_lt hkn)) hA hr
  | jump _ hc hk hsome ih => exact .jump (ih hj) hc hk (hpath _ (Nat.lt_of_lt_of_le hk hj) _ ▸ hsome)

end Entered

theorem OnPath.mono {start A : NonTerminal} {c : Chart ItemSet} {j j' k : Nat} (h : OnPath start c j A k) (hj : j ≤ j') :
    OnPath start c j' A k := by
  induction h with
  | completed hm hd hlt => exact .completed (Nat.le_trans hm hj) hd hlt
  | climb _ hup ih => exact .climb ih hup

namespace Parser

variable {σ τ : Type} {p : Parser σ} {p' : Parser τ} {input input' : List (List Token)} {run run' : Parse σ}
  {c c' : Chart ItemSet} {r : DottedRule} {i j k n : Nat} {A : NonTerminal}

/-! ## Only what is entered is there -/

/-- Every item has been entered by the rules, and every memoized path lies on the way
of a completion, as does what is memoized above it. -/
structure Grounded (p : Parser σ) (input : List (List Token)) (c : Chart ItemSet) : Prop where
  entered : ∀ {r i k}, c.Holds k r i → Entered p.grammar (p.path? c) input r i k
  onPath : ∀ {k t A}, t ∈ c.lane k .transitions → t.kind = .transitive A →
    p.leo = true ∧ OnPath p.grammar.start c input.length A k
  above : ∀ {k t A}, t ∈ c.lane k .transitions → t.kind = .transitive A → c.MemoizedAbove p.grammar.start A k

theorem grounded_of_empty (p : Parser σ) (hc : c = .empty) : Grounded p [] c := by
  have hlane : ∀ k l, c.lane k l = [] := fun _ _ => hc ▸ rfl
  refine ⟨fun hr => ?_, ?_, ?_⟩
  · obtain ⟨l, s, hs, -⟩ := Chart.holds_iff.1 hr
    simp [hlane] at hs
  · simp [hlane]
  · simp [hlane]

theorem Grounded.extend (h : Grounded p input c) (tokens : List Token) : Grounded p (input ++ [tokens]) c := by
  refine ⟨fun hr => ?_, fun ht hkind => ?_, h.above⟩
  · have hentered := h.entered hr
    exact hentered.congr (fun _ _ _ => rfl) (fun k t ht => (Deducible.offers_append ht.lt_length).2 ht) (Nat.le_refl _)
  · obtain ⟨hleo, hon⟩ := h.onPath ht hkind
    exact ⟨hleo, hon.mono (by simp)⟩

namespace Grounded

theorem entered_of_lane (h : Grounded p input c) (hs : Sound p.grammar input n c) {s : State} {l : Lane}
    (hmem : s ∈ c.lane k l) (hl : l ≠ .transitions) : Entered p.grammar (p.path? c) input s.rule s.origin k :=
  h.entered (hs.holds hmem hl)

theorem entered_of_waiting (h : Grounded p input c) (hs : Sound p.grammar input n c) {s : State}
    (hw : s ∈ c.waiting k A) : Entered p.grammar (p.path? c) input s.rule s.origin k :=
  h.entered_of_lane hs (Chart.mem_waiting.1 hw).1 (by simp)

theorem entered_of_begins (h : Grounded p input c) (hs : Sound p.grammar input n c) (hr : Begins p.grammar c n r) :
    Entered p.grammar (p.path? c) input r n n := by
  cases hr with
  | start hr => exact .start hr
  | predict hw hr => exact .predict (h.entered_of_waiting hs hw) (Chart.mem_waiting.1 hw).2 hr

theorem entered_of_warranted (h : Grounded p input c) (hs : Sound p.grammar input n c) {m : DotMove}
    (hm : Warranted p input c n m) : Entered p.grammar (p.path? c) input m.rule m.origin n := by
  cases hm with
  | scan hs₀ htokens ht hx hr =>
    obtain ⟨l, hl, htype⟩ := State.expects_iff.1 hx
    have hscans := h.entered_of_lane hs hs₀ (by simp)
    exact hscans.scan hl ⟨_, htokens, _, ht, htype.symm⟩ hr
  | skip hw hn hr =>
    have hwaits := h.entered_of_waiting hs hw
    exact hwaits.skip (Chart.mem_waiting.1 hw).2 hn hr
  | @complete _ d s r hd hpath hw hr =>
    obtain ⟨-, hc⟩ := Item.lane_eq_completions_iff.1 (hs.lane_ok hd)
    have hwaits := h.entered_of_waiting hs hw
    have hA := (Chart.mem_waiting.1 hw).2
    have hded := hs.deducible_of_holds (hs.holds hd (by simp))
    by_cases hlt : d.origin < n
    · exact .complete (h.entered_of_lane hs hd (by simp)) hc hlt (hpath hlt) hwaits hA hr
    · -- Completed without input, so the left-hand side is nullable.
      have heq : d.origin = n := Nat.le_antisymm hded.origin_le (Nat.le_of_not_lt hlt)
      rw [heq] at hwaits hded
      exact hwaits.skip hA (Grammar.isNullable_iff.2 (hded.lhs_mem_nullables hc)) hr
  | @jump _ d t hleo hd hlt ht hkind =>
    obtain ⟨-, hc⟩ := Item.lane_eq_completions_iff.1 (hs.lane_ok hd)
    refine .jump (h.entered_of_lane hs hd (by simp)) hc hlt ?_
    rw [path?, if_pos hleo]
    exact (hs.memo ht hkind).2

/-- What is added to a set has been entered. -/
theorem entered_of_addable (h : Grounded p input c) (hs : Sound p.grammar input n c) {s : State}
    (hadd : Addable p input n c k s) (hkind : s.kind = .normal) :
    Entered p.grammar (p.path? c) input s.rule s.origin k := by
  cases hadd with
  | begin hr => exact h.entered_of_begins hs hr
  | move hm => exact h.entered_of_warranted hs hm
  | memoize => cases hkind

end Grounded

theorem grounded_step (hs : Sound p.grammar input input.length run.chart) (h : Step p input input.length run run')
    (hg : Grounded p input run.chart) : Grounded p input run'.chart := by
  obtain ⟨hs', hgrows⟩ := h.keeps hs
  refine ⟨fun {r i k} hr => ?_, fun {k t A} ht hkind => ?_, fun {k t A} ht hkind => ?_⟩
  · have hk := (hs'.deducible_of_holds hr).location_le
    obtain ⟨l, s, hmem, hitem⟩ := Chart.holds_iff.1 hr
    have hentered : Entered p.grammar (p.path? run.chart) input r i k := by
      rcases h.mem_cases hs hmem with hold | ⟨-, hnew⟩
      · exact hg.entered (Chart.holds_iff.2 ⟨l, s, hold, hitem⟩)
      · have hadd := hg.entered_of_addable hs hnew (by rw [hitem])
        rwa [hitem] at hadd
    exact hentered.congr (fun _ hlt _ => (path?_eq_of_grows hgrows hlt _).symm) (fun _ _ => id) hk
  · rcases h.mem_cases hs ht with hold | ⟨-, hnew⟩
    · exact (hg.onPath hold hkind).imp_right fun hon => hon.grows hgrows
    · cases hnew with
      | begin => cases hkind
      | move => cases hkind
      | memoize hleo hon =>
        cases hkind
        exact ⟨hleo, hon.grows hgrows⟩
  · rcases h.mem_cases hs ht with hold | ⟨-, hnew⟩
    · exact (hg.above hold hkind).grows hgrows (hs.memo hold hkind).1
    · cases hnew with
      | begin => cases hkind
      | move => cases hkind
      | memoize _ hon _ habove =>
        cases hkind
        exact habove.grows hgrows hon.lt

theorem grounded_invariant (p : Parser σ) : Invariant p fun input run => Grounded p input run.chart where
  fresh _ hchart _ := grounded_of_empty p hchart
  emptied _ := grounded_of_empty p rfl
  extend tokens _ h := h.extend tokens
  step := grounded_step

/-! ## All that is entered is there -/

theorem Settled.holds_of_entered (h : Settled p input c n) (hs : Sound p.grammar input n c)
    (he : Entered p.grammar (p.path? c) input r i j) (hj : j ≤ n) : c.Holds j r i := by
  induction he with
  | start hr => exact h.start _ hr
  | @predict r r' i j A _ hA hr ih =>
    obtain ⟨s, hmem, rfl, rfl⟩ := hs.mem_lane (ih hj) (Item.lane_eq_predictions_iff.2 ⟨rfl, A, hA⟩)
    exact ((h.closed j hj).predicted s hmem).1 A hA r' hr
  | @skip r r' i j A _ hA hn hr ih =>
    obtain ⟨s, hmem, rfl, rfl⟩ := hs.mem_lane (ih hj) (Item.lane_eq_predictions_iff.2 ⟨rfl, A, hA⟩)
    refine ((h.closed j hj).predicted s hmem).2 r' ?_
    simp only [Grammar.skip?, DottedRule.postDotNonTerminal?_eq_some_iff.2 hA, hn, if_true, hr]
  | @scan r r' i j l _ hl ht hr ih =>
    obtain ⟨s, hmem, rfl, rfl⟩ := hs.mem_lane (ih (by omega)) (Item.lane_eq_scans_iff.2 ⟨rfl, l, hl⟩)
    exact h.scanned j (by omega) s hmem l r' hl ht hr
  | @complete d r r' i k j _ hc hk hpath _ hA hr ihd ih =>
    obtain ⟨e, he, rfl, rfl⟩ := hs.mem_lane (ihd hj) (Item.lane_eq_completions_iff.2 ⟨rfl, hc⟩)
    obtain ⟨s, hmem, rfl, rfl⟩ := hs.mem_lane (ih (by omega)) (Item.lane_eq_predictions_iff.2 ⟨rfl, _, hA⟩)
    exact ((h.closed j hj).passedOn e he hk).moved hpath s (Chart.mem_waiting.2 ⟨hmem, hA⟩) r' hr
  | @jump d r i k j _ hc hk hpath ih =>
    obtain ⟨e, he, rfl, rfl⟩ := hs.mem_lane (ih hj) (Item.lane_eq_completions_iff.2 ⟨rfl, hc⟩)
    exact ((h.closed j hj).passedOn e he hk).jumped (r, i) hpath

namespace Tracks

theorem holds_iff (h : Tracks p input run) (hg : Grounded p input run.chart) :
    run.chart.Holds j r i ↔ Entered p.grammar (p.path? run.chart) input r i j :=
  ⟨hg.entered, fun he => h.settled.holds_of_entered h.sound he he.location_le⟩

/-- Every path on the way of a completion is memoized. -/
theorem exists_transition (h : Tracks p input run) (hg : Grounded p input run.chart) (hleo : p.leo = true)
    (hon : OnPath p.grammar.start run.chart input.length A k) (htop : run.chart.top? p.grammar.start A k ≠ none) :
    ∃ t ∈ run.chart.lane k .transitions, t.kind = .transitive A := by
  induction hon with
  | completed hm hd hlt =>
    refine (h.settled.closed _ hm).memoized _ hd hlt ?_
    rwa [path?, if_pos hleo]
  | @climb A k i r _ hup ih =>
    -- What lies above has been memoized along with the path below.
    obtain ⟨t, ht, hkind⟩ := ih hup.top?_ne_none
    exact hg.above ht hkind r i hup htop

theorem mem_transitions_iff (h : Tracks p input run) (hg : Grounded p input run.chart) {x : Item} :
    x ∈ (run.chart.lane k .transitions).map State.toItem ↔ p.leo = true ∧ ∃ A, x.kind = .transitive A ∧
      OnPath p.grammar.start run.chart input.length A k ∧
      run.chart.top? p.grammar.start A k = some (x.rule, x.origin) := by
  rw [List.mem_map]
  constructor
  · rintro ⟨t, ht, rfl⟩
    obtain ⟨⟨A, hkind⟩, -⟩ := Item.lane_eq_transitions_iff.1 (h.sound.lane_ok ht)
    obtain ⟨hleo, hon⟩ := hg.onPath ht hkind
    exact ⟨hleo, A, hkind, hon, (h.sound.memo ht hkind).2⟩
  · rintro ⟨hleo, A, hkind, hon, htop⟩
    obtain ⟨t, ht, hkind'⟩ := h.exists_transition hg hleo hon (htop ▸ Option.some_ne_none _)
    have hmemo := (h.sound.memo ht hkind').2
    rw [htop, Option.some.injEq, Prod.mk.injEq] at hmemo
    refine ⟨t, ht, ?_⟩
    rw [Item.mk.injEq]
    exact ⟨hmemo.1.symm, hmemo.2.symm, hkind'.trans hkind.symm⟩

/-- Paths are memoized in sets that lie behind. -/
theorem transitions_eq_nil (h : Tracks p input run) (hk : run.location ≤ k) : run.chart.lane k .transitions = [] := by
  rw [List.eq_nil_iff_forall_not_mem]
  intro t ht
  obtain ⟨⟨A, hkind⟩, -⟩ := Item.lane_eq_transitions_iff.1 (h.sound.lane_ok ht)
  have hlt := (h.sound.memo ht hkind).1
  rw [h.location_eq] at hk
  omega

theorem transitions_eq_nil_of_plain (h : Tracks p input run) (hg : Grounded p input run.chart) (hleo : p.leo = false)
    (k : Nat) : run.chart.lane k .transitions = [] := by
  rw [List.eq_nil_iff_forall_not_mem]
  intro t ht
  have hyes := ((h.mem_transitions_iff hg).1 (List.mem_map_of_mem ht)).1
  rw [hleo] at hyes
  cases hyes

end Tracks

end Parser

/-! ## Two charts -/

/-- The two sets at `k` have the same items, apart from memoized paths. -/
def Chart.SameNormals (c c' : Chart ItemSet) (k : Nat) : Prop :=
  ∀ l ≠ .transitions, ((c.lane k l).map State.toItem).Perm ((c'.lane k l).map State.toItem)

namespace Chart.SameNormals

variable {c c' : Chart ItemSet} {start A : NonTerminal} {j k i : Nat} {r : DottedRule}

theorem symm (h : c.SameNormals c' k) : c'.SameNormals c k := fun l hl => (h l hl).symm

/-- The only state that waits in the one set is the only one in the other. -/
theorem waiting_eq_singleton (h : c.SameNormals c' k) {s : State} (hs : c.waiting k A = [s]) :
    ∃ s', c'.waiting k A = [s'] ∧ s'.toItem = s.toItem := by
  have hitems : ∀ c : Chart ItemSet, (c.waiting k A).map State.toItem =
      ((c.lane k .predictions).map State.toItem).filter fun x => x.rule.postDot? = some (.nonTerminal A) := by
    intro c
    rw [List.filter_map]
    rfl
  have hperm : ((c.waiting k A).map State.toItem).Perm ((c'.waiting k A).map State.toItem) := by
    rw [hitems c, hitems c']
    exact (h .predictions (by simp)).filter _
  rw [hs, List.map_singleton, List.singleton_perm] at hperm
  obtain ⟨s', hs', hitem⟩ := List.map_eq_singleton_iff.1 hperm.symm
  exact ⟨s', hs', hitem⟩

theorem climbs (h : c.SameNormals c' k) (hup : c.Climbs start A k r i) : c'.Climbs start A k r i := by
  obtain ⟨s, hs, hr, ho, hrest⟩ := hup
  obtain ⟨s', hs', hitem⟩ := h.waiting_eq_singleton hs
  exact ⟨s', hs', by rw [hitem, hr], by rw [hitem, ho], hrest⟩

theorem top?_eq (h : ∀ k' ≤ k, c.SameNormals c' k') (A : NonTerminal) : c.top? start A k = c'.top? start A k := by
  induction k using Nat.strongRecOn generalizing A with
  | _ k ih =>
    have himp : ∀ {c c' : Chart ItemSet} {t : DottedRule × Nat}, c.SameNormals c' k →
        (∀ k' < k, ∀ A, c.top? start A k' = c'.top? start A k') → c.top? start A k = some t →
        c'.top? start A k = some t := by
      intro c c' t hsame hbelow ht
      obtain ⟨s, rule, hs, hr, hc, rfl⟩ := Chart.top?_eq_some_iff.1 ht
      obtain ⟨s', hs', hitem⟩ := hsame.waiting_eq_singleton hs
      refine Chart.top?_eq_some_iff.2 ⟨s', rule, hs', by rw [hitem, hr], hc, ?_⟩
      rw [hitem]
      by_cases hlt : s.origin < k
      · rw [hbelow s.origin hlt]
      · simp only [hlt, false_and, if_false]
    have hbelow : ∀ k' < k, ∀ A, c.top? start A k' = c'.top? start A k' :=
      fun k' hk' A => ih k' hk' (fun k'' hk'' => h k'' (by omega)) A
    ext t
    exact ⟨himp (h k (Nat.le_refl k)) hbelow, himp (h k (Nat.le_refl k)).symm fun k' hk' A => (hbelow k' hk' A).symm⟩

theorem onPath (h : ∀ k ≤ j, c.SameNormals c' k) (hon : OnPath start c j A k) : OnPath start c' j A k := by
  induction hon with
  | @completed m d hm hd hlt =>
    obtain ⟨d', hd', hitem⟩ := List.mem_map.1 ((h m hm .completions (by simp)).subset (List.mem_map_of_mem hd))
    have hlt' : d'.origin < m := by rwa [hitem]
    have hon' : OnPath start c' j d'.rule.lhs d'.origin := .completed hm hd' hlt'
    rwa [hitem] at hon'
  | climb hon hup ih => exact .climb ih ((h _ (Nat.le_of_lt hon.lt)).climbs hup)

end Chart.SameNormals

theorem Sound.mem_items_iff {g : Grammar} {input : List (List Token)} {n k : Nat} {c : Chart ItemSet}
    (h : Sound g input n c) {l : Lane} (hl : l ≠ .transitions) {x : Item} :
    x ∈ (c.lane k l).map State.toItem ↔ c.Holds k x.rule x.origin ∧ x.kind = .normal ∧ x.lane = .ok l := by
  rw [List.mem_map]
  constructor
  · rintro ⟨s, hs, rfl⟩
    exact ⟨h.holds hs hl, Item.kind_of_lane (h.lane_ok hs) hl, h.lane_ok hs⟩
  · rintro ⟨hh, hkind, hlane⟩
    obtain ⟨r, i, kind⟩ := x
    dsimp only at hh hkind
    subst hkind
    obtain ⟨s, hs, hr, hi⟩ := h.mem_lane hh hlane
    refine ⟨s, hs, ?_⟩
    rw [Item.mk.injEq]
    exact ⟨hr, hi, Item.kind_of_lane (h.lane_ok hs) hl⟩

namespace Parser

variable {σ τ : Type} {g : Grammar} {leo : Bool} {b : ForestBuilder σ} {b' : ForestBuilder τ}
  {input input' : List (List Token)} {run : Parse σ} {run' : Parse τ}

namespace Tracks

/-- From set to set, the paths are the same and so is what is entered. -/
theorem sameNormals (h : Tracks ⟨g, leo, b⟩ input run) (hg : Grounded ⟨g, leo, b⟩ input run.chart)
    (h' : Tracks ⟨g, leo, b'⟩ input' run') (hg' : Grounded ⟨g, leo, b'⟩ input' run'.chart)
    (hin : SameChoices input input') (j : Nat) : run.chart.SameNormals run'.chart j := by
  induction j using Nat.strongRecOn with
  | _ j ih =>
    have hpath : ∀ k < j, ∀ A, path? (⟨g, leo, b⟩ : Parser σ) run.chart A k =
        path? (⟨g, leo, b'⟩ : Parser τ) run'.chart A k := by
      intro k hk A
      unfold path?
      rw [Chart.SameNormals.top?_eq (fun k' hk' => ih k' (by omega)) A]
    have hholds : ∀ r i, run.chart.Holds j r i ↔ run'.chart.Holds j r i := by
      intro r i
      rw [h.holds_iff hg, h'.holds_iff hg']
      exact ⟨fun he => he.congr hpath (fun _ _ => hin.offers) (Nat.le_refl j),
        fun he => he.congr (fun k hk A => (hpath k hk A).symm) (fun _ _ => hin.symm.offers) (Nat.le_refl j)⟩
    intro l hl
    rw [List.perm_ext_iff_of_nodup (h.sound.nodup j l) (h'.sound.nodup j l)]
    intro x
    rw [h.sound.mem_items_iff hl, h'.sound.mem_items_iff hl, hholds]

/-- Parses with the same choices have the same items in each lane of each set, whatever
their forest builders. -/
theorem items_perm (h : Tracks ⟨g, leo, b⟩ input run) (hg : Grounded ⟨g, leo, b⟩ input run.chart)
    (h' : Tracks ⟨g, leo, b'⟩ input' run') (hg' : Grounded ⟨g, leo, b'⟩ input' run'.chart)
    (hin : SameChoices input input') (k : Nat) (l : Lane) :
    ((run.chart.lane k l).map State.toItem).Perm ((run'.chart.lane k l).map State.toItem) := by
  have hsame := h.sameNormals hg h' hg' hin
  by_cases hl : l = .transitions
  · subst hl
    rw [List.perm_ext_iff_of_nodup (h.sound.nodup k _) (h'.sound.nodup k _)]
    intro x
    rw [h.mem_transitions_iff hg, h'.mem_transitions_iff hg', hin.length_eq]
    have hon : ∀ A, OnPath g.start run.chart input'.length A k ↔ OnPath g.start run'.chart input'.length A k := fun A =>
      ⟨Chart.SameNormals.onPath fun k _ => hsame k, Chart.SameNormals.onPath fun k _ => (hsame k).symm⟩
    simp only [hon, Chart.SameNormals.top?_eq fun k _ => hsame k]
  · exact hsame k l hl

end Tracks

end Parser

end ChartParser
