import ChartParser.Parser.Run
import ChartParser.Proofs.Expectations
import ChartParser.Proofs.InStep
import ChartParser.Proofs.Session
/-!
# Linked parses

The nodes of a forest, the values and positions of tokens, the table of rules, the
kept expectations and the journal take no part in what a parser decides. A `Link`
says how two parses are to correspond in these. If the two forest builders and
the bookkeeping keep the link (`Link.Kept`), the same calls get the same answers and
build charts with the same items in the same order (`Link.performAll`).
-/
namespace ChartParser

variable {σ τ : Type}

/-- How two parses are to correspond, apart from the items of their charts. -/
structure Link (σ τ : Type) where
  node : Option ForestNode → Option ForestNode → Prop
  token : Token → Token → Prop
  forest : σ → τ → Prop
  table : RuleTable → RuleTable → Prop
  expectations : Expectations → Expectations → Prop
  journal : Journal Item → Journal Item → Prop

namespace Link

variable (L : Link σ τ)

/-- States of one item, with linked nodes. -/
structure States (s s' : State) : Prop where
  item_eq : s.toItem = s'.toItem
  node : L.node s.node s'.node

structure Sets (set set' : ItemSet) : Prop where
  location_eq : set.location = set'.location
  queue : ∀ lane, List.Forall₂ L.States (set.queue lane).toList (set'.queue lane).toList

def Charts (c c' : Chart ItemSet) : Prop := List.Forall₂ L.Sets c.sets c'.sets

inductive Crossings : Crossing → Crossing → Prop
  | token {t t' : Token} (h : L.token t t') : Crossings (.token t) (.token t')
  | completed (A : NonTerminal) (origin : Nat) {n n' : Option ForestNode} (h : L.node n n') :
    Crossings (.completed A origin n) (.completed A origin n')
  | empty (A : NonTerminal) : Crossings (.empty A) (.empty A)
  | transitive (A : NonTerminal) (origin : Nat) {n n' : Option ForestNode} (h : L.node n n') :
    Crossings (.transitive A origin n) (.transitive A origin n')

structure Moves (m m' : DotMove) : Prop where
  rule_eq : m.rule = m'.rule
  origin_eq : m.origin = m'.origin
  location_eq : m.location = m'.location
  parent : L.node m.parent m'.parent
  crossed : L.Crossings m.crossed m'.crossed

structure Parses (run : Parse σ) (run' : Parse τ) : Prop where
  table : L.table run.table run'.table
  chart : L.Charts run.chart run'.chart
  location_eq : run.location = run'.location
  forest : L.forest run.forest run'.forest
  expectations : L.expectations run.expectations run'.expectations
  memoized_eq : run.memoized = run'.memoized
  journal : L.journal run.journal run'.journal

/-- Calls that offer linked tokens. -/
inductive Calls : Call → Call → Prop
  | offer {tokens tokens' : List Token} (h : List.Forall₂ L.token tokens tokens') :
    Calls (.offer tokens) (.offer tokens')
  | expected : Calls .expected .expected
  | restart : Calls .restart .restart

/-- Whatever happens to both parses keeps them linked. -/
structure Kept (g : Grammar) (b : ForestBuilder σ) (b' : ForestBuilder τ) : Prop where
  none : L.node none none
  tokenType_eq : ∀ {t t'}, L.token t t' → t.tokenType = t'.tokenType
  attach : ∀ {m m' s s'}, L.Moves m m' → L.forest s s' →
    L.node (b.attach m s).1 (b'.attach m' s').1 ∧ L.forest (b.attach m s).2 (b'.attach m' s').2
  intern : ∀ {t t'} r, L.table t t' → L.table (t.intern r) (t'.intern r)
  collect : Expectations.Interchangeable g L.expectations
  push : ∀ {j j'} entry, L.journal j j' → L.journal (j.push entry) (j'.push entry)

variable {L}

theorem Calls.refl (htoken : ∀ t, L.token t t) (call : Call) : L.Calls call call := by
  cases call with
  | offer tokens => exact .offer (List.forall₂_same.2 fun t _ => htoken t)
  | expected => exact .expected
  | restart => exact .restart

/-! ## Sets and charts -/

section Charts

variable {s s' : State} {set set' : ItemSet} {c c' : Chart ItemSet}

theorem States.lane_eq (h : L.States s s') : s.lane = s'.lane := congrArg Item.lane h.item_eq

theorem States.waitsFor_eq (h : L.States s s') (A : NonTerminal) : s.waitsFor A = s'.waitsFor A := by
  unfold State.waitsFor
  rw [h.item_eq]

theorem queue_insert {q q' : Queue State} (hq : List.Forall₂ L.States q.toList q'.toList) (h : L.States s s') :
    (q.insert s).1 = (q'.insert s').1 ∧ List.Forall₂ L.States (q.insert s).2.toList (q'.insert s').2.toList := by
  have hcontains : q.contains s = q'.contains s' := by
    unfold Queue.contains
    generalize q.toList = l at hq
    generalize q'.toList = l' at hq
    induction hq with
    | nil => rfl
    | @cons a b l l' hab _ ih =>
      have hbeq : (s == a) = (s' == b) := by
        show (s.toItem == a.toItem) = (s'.toItem == b.toItem)
        rw [h.item_eq, hab.item_eq]
      rw [List.contains_cons, List.contains_cons, hbeq, ih]
  unfold Queue.insert
  rw [hcontains]
  split
  · exact ⟨rfl, hq⟩
  · exact ⟨rfl, List.rel_append hq (.cons h .nil)⟩

theorem Sets.insert (hset : L.Sets set set') (h : L.States s s') :
    InStep (fun x y => x.1 = y.1 ∧ L.Sets x.2 y.2) (set.insert s) (set'.insert s') := by
  unfold ItemSet.insert
  rw [h.lane_eq]
  refine (InStep.refl _).bind ?_
  rintro lane _ rfl
  obtain ⟨hnew, hq⟩ := queue_insert (hset.queue lane) h
  refine .ok ⟨hnew, by simpa using hset.location_eq, fun other => ?_⟩
  rw [ItemSet.queue_withQueue, ItemSet.queue_withQueue]
  split
  · exact hq
  · exact hset.queue other

theorem Charts.size_eq (h : L.Charts c c') : c.size = c'.size := h.length_eq

theorem Charts.get (h : L.Charts c c') (k : Nat) : InStep L.Sets (c.get k) (c'.get k) := fetch_inStep h k

theorem Charts.insert (hc : L.Charts c c') (h : L.States s s') (k : Nat) :
    (c.insert k s).1 = (c'.insert k s').1 ∧ L.Charts (c.insert k s).2 (c'.insert k s').2 := by
  have hempty : L.Sets (.empty k) (.empty k) := ⟨rfl, fun lane => by cases lane <;> exact .nil⟩
  exact Chart.update_inStep hc hempty fun _ _ hset => hset.insert h

theorem Sets.waiting (h : L.Sets set set') (A : NonTerminal) :
    List.Forall₂ L.States (set.waiting A) (set'.waiting A) :=
  forall₂_filter (h.queue .predictions) fun _ _ hs => hs.waitsFor_eq A

theorem Sets.soleWaiting? (h : L.Sets set set') (A : NonTerminal) :
    Option.Rel L.States (set.soleWaiting? A) (set'.soleWaiting? A) := by
  have hw := h.waiting A
  unfold ItemSet.soleWaiting?
  generalize set.waiting A = l at hw
  generalize set'.waiting A = l' at hw
  cases hw with
  | nil => exact .none
  | cons hs hrest =>
    cases hrest with
    | nil => exact .some hs
    | cons => exact .none

theorem Sets.transition? (h : L.Sets set set') (A : NonTerminal) :
    Option.Rel L.States (set.transition? A) (set'.transition? A) := by
  refine forall₂_find? (h.queue .transitions) fun _ _ hs => ?_
  rw [hs.item_eq]

theorem Sets.size_eq (h : L.Sets set set') : set.size = set'.size := by
  have hlen := fun lane => (h.queue lane).length_eq
  unfold ItemSet.size Queue.size
  exact congrArg₂ (· + ·) (congrArg₂ (· + ·) (congrArg₂ (· + ·) (hlen .predictions) (hlen .scans)) (hlen .completions))
    (hlen .transitions)

end Charts

/-! ## Equal nodes -/

section Equal

variable {c c' : Chart ItemSet} {m m' : DotMove} (hnode : ∀ {n n'}, L.node n n' → n = n')
include hnode

theorem Charts.eq_of_node (h : L.Charts c c') : c = c' := by
  have hstates : ∀ {l l' : List State}, List.Forall₂ L.States l l' → l = l' := by
    intro l l' hl
    rw [← List.forall₂_eq_eq_eq]
    exact hl.imp fun s s' hs => by rw [State.mk.injEq]; exact ⟨hs.item_eq, hnode hs.node⟩
  have hqueue : ∀ {set set'}, L.Sets set set' → ∀ lane, set.queue lane = set'.queue lane := by
    intro set set' hset lane
    rw [Queue.mk.injEq]
    exact hstates (hset.queue lane)
  rw [Chart.mk.injEq, ← List.forall₂_eq_eq_eq]
  refine List.Forall₂.imp (fun set set' hset => ?_) h
  rw [ItemSet.mk.injEq]
  exact ⟨hset.location_eq, hqueue hset .predictions, hqueue hset .scans, hqueue hset .completions,
    hqueue hset .transitions⟩

theorem Moves.eq_of_node (htoken : ∀ {t t'}, L.token t t' → t = t') (h : L.Moves m m') : m = m' := by
  have hcrossed : ∀ {x x'}, L.Crossings x x' → x = x' := by
    intro x x' hx
    cases hx with
    | token ht => rw [htoken ht]
    | completed A origin hn => rw [hnode hn]
    | empty A => rfl
    | transitive A origin hn => rw [hnode hn]
  rw [DotMove.mk.injEq]
  exact ⟨h.rule_eq, h.origin_eq, h.location_eq, hnode h.parent, hcrossed h.crossed⟩

end Equal

/-! ## Single steps -/

section Steps

variable {g : Grammar} {leo : Bool} {b : ForestBuilder σ} {b' : ForestBuilder τ} {run : Parse σ} {run' : Parse τ}
  {s s' : State} {op : Operation} {k : Nat}

theorem Parses.insert (hL : L.Kept g b b') (h : L.Parses run run') (hs : L.States s s') :
    InStep (fun x y => x.1 = y.1 ∧ L.Parses x.2 y.2) (run.insert op k s) (run'.insert op k s') := by
  obtain ⟨hnew, hc⟩ := h.chart.insert hs k
  unfold Parse.insert
  rw [hs.item_eq]
  generalize run.chart.insert k s = x at hnew hc
  generalize run'.chart.insert k s' = y at hnew hc
  obtain ⟨x, c⟩ := x
  obtain ⟨y, c'⟩ := y
  dsimp only at hnew hc
  subst hnew
  cases x with
  | error e => exact .error e
  | ok new =>
    cases new with
    | false => exact .ok ⟨rfl, { h with chart := hc }⟩
    | true => exact .ok ⟨rfl, { h with chart := hc, journal := hL.push _ h.journal }⟩

theorem Parses.intern (hL : L.Kept g b b') (h : L.Parses run run') (r : DottedRule) :
    L.Parses { run with table := run.table.intern r } { run' with table := run'.table.intern r } :=
  { h with table := hL.intern r h.table }

theorem Parses.begin (hL : L.Kept g b b') (h : L.Parses run run') (rules : List DottedRule) :
    InStep L.Parses (run.begin op k rules) (run'.begin op k rules) := by
  have hsame : List.Forall₂ Eq rules rules := List.forall₂_refl rules
  refine InStep.foldlM hsame h ?_
  rintro run run' h r _ rfl
  exact ((h.intern hL r).insert hL ⟨rfl, hL.none⟩).bind fun _ _ ⟨_, h⟩ => .ok h

theorem Parses.attach (hL : L.Kept g b b') (h : L.Parses run run') {m m' : DotMove} (hm : L.Moves m m') :
    InStep L.Parses (Parser.attach ⟨g, leo, b⟩ run op m) (Parser.attach ⟨g, leo, b'⟩ run' op m') := by
  obtain ⟨hnode, hforest⟩ := hL.attach hm h.forest
  unfold Parser.attach
  rw [hm.location_eq]
  have hstate : L.States (.normal m.rule m.origin (b.attach m run.forest).1)
      (.normal m'.rule m'.origin (b'.attach m' run'.forest).1) :=
    ⟨by simp only [State.normal, hm.rule_eq, hm.origin_eq], hnode⟩
  have h : L.Parses { run with forest := (b.attach m run.forest).2 } { run' with forest := (b'.attach m' run'.forest).2 } :=
    ⟨h.table, h.chart, h.location_eq, hforest, h.expectations, h.memoized_eq, h.journal⟩
  exact (h.insert hL hstate).bind fun _ _ ⟨_, h⟩ => .ok h

theorem Parses.advance (hL : L.Kept g b b') (h : L.Parses run run') (hs : L.States s s') {x x' : Crossing}
    (hx : L.Crossings x x') :
    InStep L.Parses (Parser.advance ⟨g, leo, b⟩ run op k s x) (Parser.advance ⟨g, leo, b'⟩ run' op k s' x') := by
  unfold Parser.advance
  rw [hs.item_eq]
  cases s'.rule.advance? with
  | none => exact .ok h
  | some r => exact (h.intern hL r).attach hL ⟨rfl, rfl, rfl, hs.node, hx⟩

theorem Parses.predict (hL : L.Kept g b b') (h : L.Parses run run') (hs : L.States s s') :
    InStep L.Parses (Parser.predict ⟨g, leo, b⟩ run k s) (Parser.predict ⟨g, leo, b'⟩ run' k s') := by
  unfold Parser.predict
  rw [hs.item_eq]
  cases s'.rule.postDotNonTerminal? with
  | none => exact .ok h
  | some A =>
    refine (h.begin hL _).bind fun run run' h => ?_
    dsimp only
    split
    · exact h.advance hL hs (.empty A)
    · exact .ok h

end Steps

/-! ## Reduction -/

section Reduction

variable {g : Grammar} {leo : Bool} {b : ForestBuilder σ} {b' : ForestBuilder τ} {run : Parse σ} {run' : Parse τ}
  {s s' : State}

theorem Parses.addTransition (hL : L.Kept g b b') (h : L.Parses run run') (A : NonTerminal) (k : Nat)
    (r : DottedRule) (i : Nat) :
    InStep L.Parses (Parser.addTransition run A k r i) (Parser.addTransition run' A k r i) := by
  have hs : L.States (.transitive A r i) (.transitive A r i) := ⟨rfl, hL.none⟩
  refine (h.insert hL hs).bind ?_
  rintro ⟨new, run⟩ ⟨_, run'⟩ ⟨rfl, h⟩
  cases new with
  | false => exact .ok h
  | true => exact .ok { h with memoized_eq := congrArg (· + 1) h.memoized_eq }

theorem Parses.memoize (hL : L.Kept g b b') (h : L.Parses run run') (A : NonTerminal) (k : Nat) :
    InStep (fun x y => x.1 = y.1 ∧ L.Parses x.2 y.2) (Parser.memoize ⟨g, leo, b⟩ run A k)
      (Parser.memoize ⟨g, leo, b'⟩ run' A k) := by
  induction k using Nat.strongRecOn generalizing A run run' with
  | _ k ih =>
    rw [Parser.memoize.eq_1 ⟨g, leo, b⟩ run A k, Parser.memoize.eq_1 ⟨g, leo, b'⟩ run' A k]
    refine (h.chart.get k).bind fun set set' hset => ?_
    have ht := hset.transition? A
    generalize set.transition? A = t at ht
    generalize set'.transition? A = t' at ht
    cases ht with
    | some ht => exact .ok ⟨by rw [ht.item_eq], h⟩
    | none =>
      have hs := hset.soleWaiting? A
      generalize set.soleWaiting? A = s at hs
      generalize set'.soleWaiting? A = s' at hs
      cases hs with
      | none => exact .ok ⟨rfl, h⟩
      | @some s s' hs =>
        dsimp only
        rw [hs.item_eq]
        cases s'.rule.advance? with
        | none => exact .ok ⟨rfl, h⟩
        | some rule =>
          have h := h.intern hL rule
          dsimp only
          split
          · refine InStep.bind (R := fun x y => x.1 = y.1 ∧ L.Parses x.2 y.2) ?_ ?_
            · split
              · rename_i hup
                exact ih _ hup.1 h rule.lhs
              · exact .ok ⟨rfl, h⟩
            · rintro ⟨above, run⟩ ⟨_, run'⟩ ⟨rfl, h⟩
              exact (h.addTransition hL A k _ _).bind fun _ _ h => .ok ⟨rfl, h⟩
          · exact .ok ⟨rfl, h⟩

theorem Parses.advanceWaiting (hL : L.Kept g b b') (h : L.Parses run run') {A : NonTerminal} {origin location : Nat}
    {x x' : Crossing} (hx : L.Crossings x x') (fuel i : Nat) :
    InStep L.Parses (Parser.advanceWaiting ⟨g, leo, b⟩ A origin location x fuel i run)
      (Parser.advanceWaiting ⟨g, leo, b'⟩ A origin location x' fuel i run') := by
  induction fuel generalizing i run run' with
  | zero => exact .error _
  | succ fuel ih =>
    unfold Parser.advanceWaiting
    refine (h.chart.get origin).bind fun set set' hset => ?_
    have hs := forall₂_getElem? (hset.waiting A) i
    generalize (set.waiting A)[i]? = s at hs
    generalize (set'.waiting A)[i]? = s' at hs
    cases hs with
    | none => exact .ok h
    | some hs => exact (h.advance hL hs hx).bind fun _ _ h => ih h (i + 1)

theorem Parses.completeStepwise (hL : L.Kept g b b') (h : L.Parses run run') (hs : L.States s s') (j : Nat) :
    InStep L.Parses (Parser.completeStepwise ⟨g, leo, b⟩ run j s) (Parser.completeStepwise ⟨g, leo, b'⟩ run' j s') := by
  unfold Parser.completeStepwise
  rw [hs.item_eq]
  exact h.advanceWaiting hL (.completed _ _ hs.node) _ _

theorem Parses.complete (hL : L.Kept g b b') (h : L.Parses run run') (hs : L.States s s') (j : Nat) :
    InStep L.Parses (Parser.complete ⟨g, leo, b⟩ run j s) (Parser.complete ⟨g, leo, b'⟩ run' j s') := by
  unfold Parser.complete
  rw [hs.item_eq]
  split
  · refine (h.memoize hL _ _).bind ?_
    rintro ⟨_, run⟩ ⟨_, run'⟩ ⟨-, h⟩
    refine (h.chart.get _).bind fun set set' hset => ?_
    have ht := hset.transition? s'.rule.lhs
    generalize set.transition? s'.rule.lhs = t at ht
    generalize set'.transition? s'.rule.lhs = t' at ht
    cases ht with
    | none => exact h.completeStepwise hL hs j
    | @some t t' ht =>
      have hmove : L.Moves
          ⟨t.rule, t.origin, j, none, .transitive s.rule.lhs s.origin s.node⟩
          ⟨t'.rule, t'.origin, j, none, .transitive s'.rule.lhs s'.origin s'.node⟩ := by
        rw [ht.item_eq, hs.item_eq]
        exact ⟨rfl, rfl, rfl, hL.none, .transitive _ _ hs.node⟩
      exact h.attach hL hmove
  · exact h.completeStepwise hL hs j

theorem Parses.reduceFrom (hL : L.Kept g b b') (h : L.Parses run run') (j fuel c q : Nat) :
    InStep L.Parses (Parser.reduceFrom ⟨g, leo, b⟩ j fuel c q run) (Parser.reduceFrom ⟨g, leo, b'⟩ j fuel c q run') := by
  induction fuel generalizing c q run run' with
  | zero => exact .error _
  | succ fuel ih =>
    unfold Parser.reduceFrom
    refine (h.chart.get j).bind fun set set' hset => ?_
    have hc : Option.Rel L.States (set.completions.get? c) (set'.completions.get? c) :=
      forall₂_getElem? (hset.queue .completions) c
    have hq : Option.Rel L.States (set.predictions.get? q) (set'.predictions.get? q) :=
      forall₂_getElem? (hset.queue .predictions) q
    generalize set.completions.get? c = s at hc
    generalize set'.completions.get? c = s' at hc
    generalize set.predictions.get? q = t at hq
    generalize set'.predictions.get? q = t' at hq
    cases hc with
    | some hs => exact (h.complete hL hs j).bind fun _ _ h => ih h (c + 1) q
    | none =>
      cases hq with
      | some hs => exact (h.predict hL hs).bind fun _ _ h => ih h c (q + 1)
      | none => exact .ok h

theorem Parses.reduce (hL : L.Kept g b b') (h : L.Parses run run') (j : Nat) :
    InStep L.Parses (Parser.reduce ⟨g, leo, b⟩ run j) (Parser.reduce ⟨g, leo, b'⟩ run' j) :=
  h.reduceFrom hL j _ 0 0

end Reduction

/-! ## Calls -/

section Calls

variable {g : Grammar} {leo : Bool} {b : ForestBuilder σ} {b' : ForestBuilder τ} {run : Parse σ} {run' : Parse τ}

/-- Nothing of the charts and locations so far matters to a parse that starts over. -/
theorem startOver (hL : L.Kept g b b') (htable : L.table run.table run'.table)
    (hforest : L.forest run.forest run'.forest) (hexp : L.expectations run.expectations run'.expectations)
    (hjournal : L.journal run.journal run'.journal) :
    InStep L.Parses (Parser.startOver ⟨g, leo, b⟩ run) (Parser.startOver ⟨g, leo, b'⟩ run') := by
  have h : L.Parses { run with chart := .empty, location := 0, memoized := 0 }
      { run' with chart := .empty, location := 0, memoized := 0 } :=
    ⟨htable, .nil, rfl, hforest, hexp, rfl, hjournal⟩
  exact (h.begin hL _).bind fun _ _ h => h.reduce hL 0

theorem Parses.restart (hL : L.Kept g b b') (h : L.Parses run run') :
    InStep L.Parses (Parser.restart ⟨g, leo, b⟩ run) (Parser.restart ⟨g, leo, b'⟩ run') := by
  unfold Parser.restart
  rw [h.location_eq]
  exact startOver hL h.table h.forest h.expectations (hL.push _ h.journal)

theorem Parses.scan (hL : L.Kept g b b') (h : L.Parses run run') {t t' : Token} (ht : L.token t t') (k : Nat) :
    InStep L.Parses (Parser.scan ⟨g, leo, b⟩ k run t) (Parser.scan ⟨g, leo, b'⟩ k run' t') := by
  unfold Parser.scan
  refine (h.chart.get k).bind fun set set' hset => ?_
  refine InStep.foldlM (hset.queue .scans) h fun run run' h s s' hs => ?_
  have hx : s.expects t.tokenType = s'.expects t'.tokenType := by
    unfold State.expects
    rw [hs.item_eq, hL.tokenType_eq ht]
  unfold Parser.scanState
  rw [hx]
  split
  · exact h.advance hL hs (.token ht)
  · exact .ok h

theorem Parses.offer (hL : L.Kept g b b') (h : L.Parses run run') {tokens tokens' : List Token}
    (ht : List.Forall₂ L.token tokens tokens') :
    InStep (fun x y => x.1 = y.1 ∧ L.Parses x.2 y.2) (Parser.offer ⟨g, leo, b⟩ run tokens)
      (Parser.offer ⟨g, leo, b'⟩ run' tokens') := by
  unfold Parser.offer
  rw [h.location_eq]
  refine (InStep.foldlM ht h fun _ _ h _ _ ht => h.scan hL ht _).bind fun run run' h => ?_
  dsimp only
  rw [h.location_eq, h.chart.size_eq, ht.length_eq]
  split
  · exact .ok ⟨rfl, { h with location_eq := rfl, journal := hL.push _ h.journal }⟩
  · have h : L.Parses { run with location := run'.location + 1 } { run' with location := run'.location + 1 } :=
      ⟨h.table, h.chart, rfl, h.forest, h.expectations, h.memoized_eq, h.journal⟩
    refine (h.reduce hL _).bind fun run run' h => ?_
    refine (h.chart.get _).bind fun set set' hset => ?_
    rw [hset.size_eq]
    exact .ok ⟨rfl, { h with journal := hL.push _ h.journal }⟩

theorem Parses.get? (h : L.Parses run run') :
    Option.Rel L.Sets (run.chart.get? run.location) (run'.chart.get? run'.location) := by
  rw [h.location_eq]
  exact forall₂_getElem? h.chart _

theorem Parses.expectedIds_eq (h : L.Parses run run') :
    Parser.expectedIds ⟨g, leo, b⟩ run = Parser.expectedIds ⟨g, leo, b'⟩ run' := by
  have hget := h.get?
  unfold Parser.expectedIds
  generalize run.chart.get? run.location = x at hget
  generalize run'.chart.get? run'.location = y at hget
  cases hget with
  | none => rfl
  | @some set set' hset =>
    have hscans : List.Forall₂ L.States set.scans.toList set'.scans.toList := hset.queue .scans
    dsimp only
    generalize set.scans.toList = l at hscans
    generalize set'.scans.toList = l' at hscans
    induction hscans with
    | nil => rfl
    | cons hs _ ih => rw [List.filterMap_cons, List.filterMap_cons, hs.item_eq, ih]

theorem Parses.expected (hL : L.Kept g b b') (h : L.Parses run run') :
    InStep (fun x y => x.1 = y.1 ∧ L.Parses x.2 y.2) (Parser.expected ⟨g, leo, b⟩ run)
      (Parser.expected ⟨g, leo, b'⟩ run') := by
  unfold Parser.expected
  have heq : Parser.expectedIds ⟨g, leo, b⟩ run = Parser.expectedIds ⟨g, leo, b'⟩ run' := h.expectedIds_eq
  rw [heq]
  have hids : ∀ id ∈ Parser.expectedIds ⟨g, leo, b'⟩ run', id < g.lexerRules.length := by
    intro id hid
    unfold Parser.expectedIds at hid
    split at hid
    · cases hid
    · obtain ⟨s, -, hs⟩ := List.mem_filterMap.1 hid
      exact Grammar.lt_of_postDotLexerRuleId? hs
  refine (hL.collect h.expectations hids).bind ?_
  rintro ⟨rules, e⟩ ⟨_, e'⟩ ⟨rfl, he⟩
  exact .ok ⟨rfl, { h with expectations := he }⟩

theorem Parses.perform (hL : L.Kept g b b') (h : L.Parses run run') {call call' : Call} (hcall : L.Calls call call') :
    InStep (fun x y => x.1 = y.1 ∧ L.Parses x.2 y.2) (Recognizer.perform (⟨g, leo, b⟩ : Parser σ) run call)
      (Recognizer.perform (⟨g, leo, b'⟩ : Parser τ) run' call') := by
  cases hcall with
  | offer ht => exact (h.offer hL ht).bind fun _ _ ⟨htaken, h⟩ => .ok ⟨congrArg Answer.taken htaken, h⟩
  | expected => exact (h.expected hL).bind fun _ _ ⟨hrules, h⟩ => .ok ⟨congrArg Answer.expected hrules, h⟩
  | restart => exact (h.restart hL).bind fun _ _ h => .ok ⟨rfl, h⟩

theorem Parses.performAll (hL : L.Kept g b b') (h : L.Parses run run') {calls calls' : List Call}
    (hcalls : List.Forall₂ L.Calls calls calls') :
    InStep (fun x y => x.1 = y.1 ∧ L.Parses x.2 y.2) (Recognizer.performAll (⟨g, leo, b⟩ : Parser σ) run calls)
      (Recognizer.performAll (⟨g, leo, b'⟩ : Parser τ) run' calls') := by
  induction hcalls generalizing run run' with
  | nil => exact .ok ⟨rfl, h⟩
  | cons hcall _ ih =>
    refine (h.perform hL hcall).bind fun x y ⟨hx, h⟩ => (ih h).bind fun x' y' ⟨hx', h⟩ => .ok ⟨?_, h⟩
    exact congrArg₂ List.cons hx hx'

end Calls

end Link

end ChartParser
