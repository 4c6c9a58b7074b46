import ChartParser.Proofs.Chart.Size
import ChartParser.Proofs.InStep
import ChartParser.RuleTable
/-!
# Stores of states

A store has a table of rules that may grow, a set of states and a chart of such sets, and
is told to enter rules and to insert states, in any order. States are told by the places
of their rules. A call that fails may leave a new, empty set behind, and the calls after
it go on from there.

How a set keeps its states is left open (`StateSet`). If a relation between two ways of
keeping them outlasts every insertion and the growth of the table, then two stores that
keep them so answer all calls alike and stay related (`Simulates.performAll`).
-/
namespace ChartParser

/-- A state whose rule is known by its place in a table. -/
structure StoredState where
  rule : RuleId
  origin : Nat
  kind : ItemKind
  node : Option ForestNode

namespace StoredState

/-- What stored states are compared by. The node takes no part. -/
def key (e : StoredState) : RuleId × Nat × ItemKind := (e.rule, e.origin, e.kind)

/-- The state, now that its rule was looked up. -/
def withRule (e : StoredState) (r : DottedRule) : State := ⟨⟨r, e.origin, e.kind⟩, e.node⟩

end StoredState

namespace RuleTable

variable {t t' : RuleTable} {e : StoredState} {s : State}

/-- The state that is stored as `e`, if its rule is in the table. -/
def state? (t : RuleTable) (e : StoredState) : Option State := t.rules[e.rule]?.map e.withRule

theorem state?_eq_some_iff : t.state? e = some s ↔ ∃ r, t.rules[e.rule]? = some r ∧ e.withRule r = s :=
  Option.map_eq_some_iff

/-- States stay what they are when the table grows. -/
theorem state?_of_prefix (h : t.rules <+: t'.rules) (hs : t.state? e = some s) : t'.state? e = some s := by
  obtain ⟨r, hr, rfl⟩ := state?_eq_some_iff.1 hs
  obtain ⟨more, hmore⟩ := h
  have hlt := (List.getElem?_eq_some_iff.1 hr).1
  refine state?_eq_some_iff.2 ⟨r, ?_, rfl⟩
  rw [← hmore, List.getElem?_append_left hlt, hr]

end RuleTable

/-! ## Sets and stores -/

/-- Sets of states that live at one location. -/
class StateSet (S : Type) where
  /-- The set at a location before anything was inserted. -/
  fresh : Nat → S
  /-- Inserts a state, given its rule; says whether it was new. -/
  insert : S → DottedRule → StoredState → Except Fault (Bool × S)
  size : S → Nat
  size_fresh : ∀ k, size (fresh k) = 0
  size_of_insert : ∀ {set set' r e new}, insert set r e = .ok (new, set') → size set' = size set + new.toNat

/-- A table, a set of its own and a chart, with states over the rules in the table. -/
structure Store (S : Type) where
  table : RuleTable
  set : S
  chart : Chart S

/-- What a store can be told. -/
inductive StoreCall where
  /-- Enter a production with a dot at `position`. -/
  | rule (production : ProductionId) (position : Nat)
  /-- Enter the rule at `id` with its dot moved over one symbol. -/
  | next (id : RuleId)
  | insert (e : StoredState)
  | insertAt (location : Nat) (e : StoredState)

inductive StoreAnswer where
  | rule (id : RuleId)
  | next (id : Option RuleId)
  | inserted (new : Bool)
  | insertedAt (new : Bool)

namespace StoreAnswer

/-- A new state was inserted into the set. -/
def isNew : Except Fault StoreAnswer → Bool
  | .ok (.inserted new) => new
  | _ => false

/-- A new state was inserted into the chart. -/
def isNewAt : Except Fault StoreAnswer → Bool
  | .ok (.insertedAt new) => new
  | _ => false

end StoreAnswer

namespace Store

variable {S T : Type} [StateSet S] [StateSet T]

/-- The store with an empty table and chart, and an empty set at `location`. -/
def empty (S : Type) [StateSet S] (location : Nat) : Store S := ⟨.empty, StateSet.fresh location, .empty⟩

/-- Takes over the table that a call to the table left, if it did not fail. -/
def grow {α : Type} (store : Store S) (answer : α → StoreAnswer) :
    Except Fault (α × RuleTable) → Except Fault StoreAnswer × Store S
  | .error fault => (.error fault, store)
  | .ok (a, table) => (.ok (answer a), { store with table })

/-- What an insertion does to a set. -/
def change (store : Store S) (e : StoredState) (set : S) : Except Fault (Bool × S) := do
  StateSet.insert set (← store.table.rule e.rule) e

def insert (store : Store S) (e : StoredState) : Except Fault StoreAnswer × Store S :=
  match store.change e store.set with
  | .error fault => (.error fault, store)
  | .ok (new, set) => (.ok (.inserted new), { store with set })

def insertAt (store : Store S) (k : Nat) (e : StoredState) : Except Fault StoreAnswer × Store S :=
  let (answer, chart) := store.chart.update k (StateSet.fresh k) (store.change e)
  (answer.map .insertedAt, { store with chart })

def perform (g : Grammar) (store : Store S) : StoreCall → Except Fault StoreAnswer × Store S
  | .rule production position => store.grow .rule (store.table.get g production position)
  | .next id => store.grow .next (store.table.next id)
  | .insert e => store.insert e
  | .insertAt k e => store.insertAt k e

/-- The answers to the calls, one after the other, whether or not they fail. -/
def performAll (g : Grammar) (store : Store S) : List StoreCall → List (Except Fault StoreAnswer) × Store S
  | [] => ([], store)
  | call :: calls =>
    let (answer, store) := store.perform g call
    let (answers, store) := store.performAll g calls
    (answer :: answers, store)

theorem performAll_append (g : Grammar) (store : Store S) (calls more : List StoreCall) :
    (store.performAll g (calls ++ more)).2 = ((store.performAll g calls).2.performAll g more).2 := by
  induction calls generalizing store with
  | nil => rfl
  | cons call calls ih => exact ih (store.perform g call).2

/-! ## How many states there are -/

theorem size_of_change {store : Store S} {e : StoredState} {set set' : S} {new : Bool}
    (h : store.change e set = .ok (new, set')) : StateSet.size set' = StateSet.size set + new.toNat := by
  obtain ⟨r, -, h⟩ := bind_eq_ok_iff.1 h
  exact StateSet.size_of_insert h

theorem size_insert (store : Store S) (e : StoredState) :
    StateSet.size (store.insert e).2.set = StateSet.size store.set + (StoreAnswer.isNew (store.insert e).1).toNat := by
  unfold insert
  split
  · rfl
  · rename_i h
    exact size_of_change h

theorem total_insertAt (store : Store S) (k : Nat) (e : StoredState) :
    (store.insertAt k e).2.chart.total StateSet.size =
      store.chart.total StateSet.size + (StoreAnswer.isNewAt (store.insertAt k e).1).toNat := by
  unfold insertAt
  cases h : store.chart.update k (StateSet.fresh k) (store.change e) with
  | mk answer chart =>
    cases answer with
    | error fault => exact Chart.total_of_update_error (StateSet.size_fresh k) h
    | ok new => exact Chart.total_of_update (StateSet.size_fresh k) size_of_change h

theorem size_perform (g : Grammar) (store : Store S) (call : StoreCall) :
    StateSet.size (store.perform g call).2.set =
      StateSet.size store.set + (StoreAnswer.isNew (store.perform g call).1).toNat ∧
    (store.perform g call).2.chart.total StateSet.size =
      store.chart.total StateSet.size + (StoreAnswer.isNewAt (store.perform g call).1).toNat := by
  cases call with
  | rule production position =>
    rw [perform]
    cases store.table.get g production position <;> exact ⟨rfl, rfl⟩
  | next id =>
    rw [perform]
    cases store.table.next id <;> exact ⟨rfl, rfl⟩
  | insert e =>
    refine ⟨store.size_insert e, ?_⟩
    rw [perform, insert]
    split <;> rfl
  | insertAt k e =>
    refine ⟨?_, store.total_insertAt k e⟩
    rw [perform, insertAt]
    cases store.chart.update k (StateSet.fresh k) (store.change e) with
    | mk answer chart => cases answer <;> rfl

/-- Set and chart have as many states as were new when they were inserted. -/
theorem size_performAll (g : Grammar) (store : Store S) (calls : List StoreCall) :
    StateSet.size (store.performAll g calls).2.set =
      StateSet.size store.set + (store.performAll g calls).1.countP StoreAnswer.isNew ∧
    (store.performAll g calls).2.chart.total StateSet.size =
      store.chart.total StateSet.size + (store.performAll g calls).1.countP StoreAnswer.isNewAt := by
  induction calls generalizing store with
  | nil => exact ⟨rfl, rfl⟩
  | cons call calls ih =>
    obtain ⟨hset, hchart⟩ := store.size_perform g call
    obtain ⟨hset', hchart'⟩ := ih (store.perform g call).2
    simp only [performAll, List.countP_cons]
    rw [hset', hset, hchart', hchart]
    have hcount : ∀ new : Bool, new.toNat = if new = true then 1 else 0 := fun new => by cases new <;> rfl
    rw [hcount, hcount]
    omega

end Store

/-! ## Stores that keep their states in two ways -/

/-- Stores with one table, whose sets are related under it. -/
structure Store.Related {S T : Type} (R : RuleTable → S → T → Prop) (store : Store S) (store' : Store T) : Prop where
  table_eq : store'.table = store.table
  nodup : store.table.rules.Nodup
  set : R store.table store.set store'.set
  chart : List.Forall₂ (R store.table) store.chart.sets store'.chart.sets

/-- Sets at one location are related. -/
theorem Store.Related.get {S T : Type} {R : RuleTable → S → T → Prop} {store : Store S} {store' : Store T}
    (h : store.Related R store') {k : Nat} {s : S} {s' : T} (hs : store.chart.get? k = some s)
    (hs' : store'.chart.get? k = some s') : R store.table s s' := by
  have hat := forall₂_getElem? h.chart k
  unfold Chart.get? at hs hs'
  rw [hs, hs'] at hat
  cases hat with
  | some h => exact h

variable {S T : Type} [StateSet S] [StateSet T]

/-- The relation outlasts insertions and the growth of the table. -/
structure Simulates (R : RuleTable → S → T → Prop) : Prop where
  fresh : ∀ t k, R t (StateSet.fresh k) (StateSet.fresh k)
  grow : ∀ {t t' s s'}, t.rules <+: t'.rules → R t s s' → R t' s s'
  insert : ∀ {t s s' r e}, t.rules.Nodup → t.rules[e.rule]? = some r → R t s s' →
    InStep (fun x y => x.1 = y.1 ∧ R t x.2 y.2) (StateSet.insert s r e) (StateSet.insert s' r e)

namespace Simulates

variable {R : RuleTable → S → T → Prop} {store : Store S} {store' : Store T}

theorem empty (hR : Simulates R) (location : Nat) : (Store.empty S location).Related R (.empty T location) :=
  ⟨rfl, List.nodup_nil, hR.fresh _ location, .nil⟩

theorem table (hR : Simulates R) (h : store.Related R store') {α : Type} (answer : α → StoreAnswer)
    {x : Except Fault (α × RuleTable)} (hx : ∀ a table, x = .ok (a, table) → store.table.Extends table) :
    (store'.grow answer x).1 = (store.grow answer x).1 ∧ (store.grow answer x).2.Related R (store'.grow answer x).2 := by
  cases x with
  | error fault => exact ⟨rfl, h⟩
  | ok x =>
    obtain ⟨a, table⟩ := x
    have hext := hx a table rfl
    exact ⟨rfl, rfl, hext.nodup h.nodup, hR.grow hext.isPrefix h.set, h.chart.imp fun _ _ => hR.grow hext.isPrefix⟩

theorem change (hR : Simulates R) (h : store.Related R store') (e : StoredState) (s : S) (s' : T)
    (hs : R store.table s s') :
    InStep (fun x y => x.1 = y.1 ∧ R store.table x.2 y.2) (store.change e s) (store'.change e s') := by
  unfold Store.change
  rw [h.table_eq]
  cases hr : store.table.rule e.rule with
  | error fault => exact .error fault
  | ok r => exact hR.insert h.nodup (fetch_eq_ok_iff.1 hr) hs

theorem insertion (hR : Simulates R) (h : store.Related R store') (e : StoredState) :
    (store'.insert e).1 = (store.insert e).1 ∧ (store.insert e).2.Related R (store'.insert e).2 := by
  have hchange := hR.change h e store.set store'.set h.set
  unfold Store.insert
  generalize store.change e store.set = x at hchange
  generalize store'.change e store'.set = y at hchange
  cases hchange with
  | error fault => exact ⟨rfl, h⟩
  | ok hset =>
    obtain ⟨hnew, hset⟩ := hset
    exact ⟨congrArg (Except.ok ∘ StoreAnswer.inserted) hnew.symm, h.table_eq, h.nodup, hset, h.chart⟩

theorem perform (hR : Simulates R) (h : store.Related R store') (g : Grammar) (call : StoreCall) :
    (store'.perform g call).1 = (store.perform g call).1 ∧
      (store.perform g call).2.Related R (store'.perform g call).2 := by
  cases call with
  | rule production position =>
    rw [Store.perform, Store.perform, h.table_eq]
    exact hR.table h _ fun _ _ => RuleTable.extends_of_get
  | next id =>
    rw [Store.perform, Store.perform, h.table_eq]
    exact hR.table h _ fun _ _ => RuleTable.extends_of_next
  | insert e => exact hR.insertion h e
  | insertAt k e =>
    obtain ⟨hanswer, hchart⟩ := Chart.update_inStep h.chart (k := k) (hR.fresh _ k) (hR.change h e)
    exact ⟨congrArg (Except.map StoreAnswer.insertedAt) hanswer.symm, h.table_eq, h.nodup, h.set, hchart⟩

theorem performAll (hR : Simulates R) (h : store.Related R store') (g : Grammar) (calls : List StoreCall) :
    (store'.performAll g calls).1 = (store.performAll g calls).1 ∧
      (store.performAll g calls).2.Related R (store'.performAll g calls).2 := by
  induction calls generalizing store store' with
  | nil => exact ⟨rfl, h⟩
  | cons call calls ih =>
    obtain ⟨hanswer, h₁⟩ := hR.perform h g call
    obtain ⟨hanswers, h₂⟩ := ih h₁
    exact ⟨congrArg₂ List.cons hanswer hanswers, h₂⟩

end Simulates

end ChartParser
