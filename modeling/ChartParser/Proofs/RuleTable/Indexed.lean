import ChartParser.Proofs.Grammar.Construction
import ChartParser.RuleTable
/-!
# Tables of rules with an index

A table may find its rules by an index, and keep with each of them what stands after the
dot and the place of that in the grammar. Both repeat what the grammar says, so they must
be kept up with it. They are: the entries are those of the rules in a table without index,
and the index has the places of these rules and nothing else (`IndexedTable.Indexes`).
This outlasts every call, and both tables answer alike (`IndexedTable.Indexes.performAll`).
-/
namespace ChartParser

/-! ## Calls to a table -/

/-- What a table can be told. -/
inductive TableCall where
  /-- Enter a production with a dot at `position`. -/
  | get (production : ProductionId) (position : Nat)
  /-- Enter the rule at `id` with its dot moved over one symbol, if there is one. -/
  | next (id : RuleId)
  /-- Enter the rule at `id`, which is not complete, with its dot moved. -/
  | advance (id : RuleId)

/-- The production and the position that a call asks for, if it asks for any, where `rules`
are those of the table. -/
def TableCall.request (rules : List DottedRule) : TableCall → Except Fault (Option (ProductionId × Nat))
  | .get production position => .ok (some (production, position))
  | .next id => do
    let r ← fetch rules id
    return if r.isComplete then none else some (r.production, r.position + 1)
  | .advance id => do
    let r ← fetch rules id
    if r.isComplete then throw (.alreadyComplete r) else return some (r.production, r.position + 1)

/-- Tables that number the rules of a grammar. After a call that fails there is a table,
too. -/
class RuleNumbers (T : Type) where
  empty : T
  get : Grammar → T → ProductionId → Nat → Except Fault RuleId × T
  next : Grammar → T → RuleId → Except Fault (Option RuleId) × T
  advance : Grammar → T → RuleId → Except Fault RuleId × T

namespace RuleNumbers

/-- The answer of a call that always answers a place, if it does not fail. -/
def place {T : Type} (x : Except Fault RuleId × T) : Except Fault (Option RuleId) × T := (x.1.map some, x.2)

variable {T : Type} [RuleNumbers T]

/-- The answer to a call, and the table after it. -/
def perform (g : Grammar) (t : T) : TableCall → Except Fault (Option RuleId) × T
  | .get production position => place (get g t production position)
  | .next id => next g t id
  | .advance id => place (advance g t id)

/-- The answers to the calls, one after the other, whether or not they fail. -/
def performAll (g : Grammar) (t : T) : List TableCall → List (Except Fault (Option RuleId)) × T
  | [] => ([], t)
  | call :: calls =>
    let (answer, t) := perform g t call
    let (answers, t) := performAll g t calls
    (answer :: answers, t)

end RuleNumbers

/-- Takes over the table that a call left, if it did not fail. -/
def RuleTable.settle {α : Type} (t : RuleTable) : Except Fault (α × RuleTable) → Except Fault α × RuleTable
  | .error fault => (.error fault, t)
  | .ok (a, t') => (.ok a, t')

instance : RuleNumbers RuleTable where
  empty := .empty
  get g t production position := t.settle (t.get g production position)
  next _ t id := t.settle (t.next id)
  advance _ t id := t.settle (t.advance id)

/-! ## The table with an index -/

/-- A rule as a table with an index keeps it. -/
structure TableEntry where
  production : ProductionId
  position : Nat
  lhs : NonTerminal
  /-- The symbol after the dot. -/
  postDot : Option Symbol
  /-- The place of that symbol in the grammar, if it is a terminal. -/
  postDotRule : Option LexerRuleId

/-- Entries in order of first use, and their places by production and position. -/
structure IndexedTable where
  entries : List TableEntry
  index : ProductionId × Nat → Option RuleId

namespace IndexedTable

def empty : IndexedTable := ⟨[], fun _ => none⟩

def entry (t : IndexedTable) (id : RuleId) : Except Fault TableEntry := fetch t.entries id

/-- Puts an entry at the end and into the index. -/
def enter (t : IndexedTable) (e : TableEntry) : IndexedTable where
  entries := t.entries ++ [e]
  index := Function.update t.index (e.production, e.position) (some t.entries.length)

def get (g : Grammar) (t : IndexedTable) (production : ProductionId) (position : Nat) :
    Except Fault RuleId × IndexedTable :=
  match t.index (production, position) with
  | some id => (.ok id, t)
  | none =>
    match g.production production with
    | .error fault => (.error fault, t)
    | .ok p =>
      if position ≤ p.rhs.length then
        let postDot := p.rhs[position]?
        let postDotRule := (postDot.bind Symbol.lexerRule?).bind g.lexerRuleId?
        (.ok t.entries.length, t.enter { production, position, lhs := p.lhs, postDot, postDotRule })
      else (.error (.dotOutOfRange position production p.rhs.length), t)

def next (g : Grammar) (t : IndexedTable) (id : RuleId) : Except Fault (Option RuleId) × IndexedTable :=
  match t.entry id with
  | .error fault => (.error fault, t)
  | .ok e => if e.postDot.isNone then (.ok none, t) else RuleNumbers.place (get g t e.production (e.position + 1))

/-- The fault of a rule that is complete, with the rule as it is shown. -/
def complete (g : Grammar) (t : IndexedTable) (id : RuleId) : Except Fault RuleId := do
  let e ← t.entry id
  throw (.alreadyComplete (← g.dottedRule e.production e.position))

def advance (g : Grammar) (t : IndexedTable) (id : RuleId) : Except Fault RuleId × IndexedTable :=
  match next g t id with
  | (.error fault, t) => (.error fault, t)
  | (.ok (some id), t) => (.ok id, t)
  | (.ok none, t) => (t.complete g id, t)

instance : RuleNumbers IndexedTable where
  empty := empty
  get := get
  next := next
  advance := advance

end IndexedTable

/-! ## What the calls do -/

namespace RuleNumbers

variable {T : Type} [RuleNumbers T] {g : Grammar} {rules : List DottedRule} {t : T}

/-- The table numbers `rules`, and a call at most enters one more: a production with a dot
up to its end, or the rule after a rule that is not complete. Any other call is a fault
and leaves the table as it is. -/
structure Numbers (g : Grammar) (rules : List DottedRule) (t : T) : Prop where
  get_of_error : ∀ {production position fault}, g.dottedRule production position = .error fault →
    get g t production position = (.error fault, t)
  get_of_ok : ∀ {production position r}, g.dottedRule production position = .ok r →
    ∃ id, (get g t production position).1 = .ok id
  next_eq : ∀ {id r}, rules[id]? = some r → next g t id =
    if r.isComplete then (.ok none, t) else place (get g t r.production (r.position + 1))
  advance_eq : ∀ {id r}, rules[id]? = some r → advance g t id =
    if r.isComplete then (.error (.alreadyComplete r), t) else get g t r.production (r.position + 1)
  next_beyond : ∀ {id}, rules.length ≤ id → next g t id = (.error (.outOfBounds rules.length id), t)
  advance_beyond : ∀ {id}, rules.length ≤ id → advance g t id = (.error (.outOfBounds rules.length id), t)

namespace Numbers

/-- A production can be entered with its dot at any position up to its end. -/
theorem exists_get_iff (h : Numbers g rules t) {production position : Nat} :
    (∃ id, (get g t production position).1 = .ok id) ↔ ∃ p, g.production production = .ok p ∧ position ≤ p.rhs.length := by
  rw [← Grammar.exists_dottedRule_iff]
  constructor
  · rintro ⟨id, hid⟩
    cases hr : g.dottedRule production position with
    | ok r => exact ⟨r, rfl⟩
    | error fault =>
      rw [h.get_of_error hr] at hid
      cases hid
  · rintro ⟨r, hr⟩
    exact h.get_of_ok hr

theorem get_eq_of_error (h : Numbers g rules t) {production position : Nat} {fault : Fault}
    (hget : (get g t production position).1 = .error fault) : (get g t production position).2 = t := by
  cases hr : g.dottedRule production position with
  | ok r =>
    obtain ⟨id, hid⟩ := h.get_of_ok hr
    rw [hid] at hget
    cases hget
  | error fault' => rw [h.get_of_error hr]

/-- Every call does what it asks for, with what `get` does. -/
theorem perform_eq (h : Numbers g rules t) (call : TableCall) : perform g t call =
    match call.request rules with
    | .error fault => (.error fault, t)
    | .ok none => (.ok none, t)
    | .ok (some (production, position)) => place (get g t production position) := by
  cases call with
  | get production position => rfl
  | next id =>
    simp only [perform, TableCall.request, fetch]
    cases hr : rules[id]? with
    | none => exact h.next_beyond (List.getElem?_eq_none_iff.1 hr)
    | some r =>
      rw [h.next_eq hr]
      cases hc : r.isComplete <;> simp [bind, Except.bind, pure, Except.pure, hc]
  | advance id =>
    simp only [perform, TableCall.request, fetch]
    cases hr : rules[id]? with
    | none => rw [h.advance_beyond (List.getElem?_eq_none_iff.1 hr)]; rfl
    | some r =>
      rw [h.advance_eq hr]
      cases hc : r.isComplete <;> simp [bind, Except.bind, pure, Except.pure, throw, throwThe, MonadExceptOf.throw, place,
        Except.map, hc]

/-- A call that fails changes nothing. -/
theorem perform_eq_of_error (h : Numbers g rules t) {call : TableCall} {fault : Fault}
    (hcall : (perform g t call).1 = .error fault) : (perform g t call).2 = t := by
  rw [h.perform_eq] at hcall ⊢
  match hrequest : call.request rules with
  | .error _ => rfl
  | .ok none => rfl
  | .ok (some (production, position)) =>
    rw [hrequest] at hcall
    dsimp only [place] at hcall ⊢
    cases hanswer : (get g t production position).1 with
    | ok id =>
      rw [hanswer] at hcall
      cases hcall
    | error fault' => exact h.get_eq_of_error hanswer

end Numbers

end RuleNumbers

namespace RuleTable

variable {g : Grammar} {t : RuleTable}

/-- A table of rules of the grammar numbers them. -/
theorem numbers (h : ∀ r ∈ t.rules, g.HasRule r) : RuleNumbers.Numbers g t.rules t := by
  have hmoved : ∀ {id : RuleId} {r r' : DottedRule}, t.rules[id]? = some r → r.advance? = some r' →
      t.get g r.production (r.position + 1) = .ok (t.idOf r', t.intern r') := fun hr ha =>
    get_eq_of_ok ((h _ (List.mem_of_getElem? hr)).dottedRule_succ ha)
  refine {
    get_of_error hr := ?_
    get_of_ok {_ _ r} hr := ⟨t.idOf r, ?_⟩
    next_eq {id r} hr := ?_
    advance_eq {id r} hr := ?_
    next_beyond hid := ?_
    advance_beyond hid := ?_ }
  · simp only [RuleNumbers.get, get_eq_of_error hr, settle]
  · simp only [RuleNumbers.get, get_eq_of_ok hr, settle]
  · have hrule : t.rule id = .ok r := fetch_eq_ok_iff.2 hr
    cases ha : r.advance? with
    | none =>
      simp only [RuleNumbers.next, next, hrule, bind, Except.bind, ha, DottedRule.advance?_eq_none_iff.1 ha]
      rfl
    | some r' =>
      have hc : ¬r.isComplete = true := by simp [← DottedRule.advance?_eq_none_iff, ha]
      simp only [RuleNumbers.next, next, hrule, bind, Except.bind, ha, if_neg hc, RuleNumbers.get, hmoved hr ha]
      rfl
  · have hrule : t.rule id = .ok r := fetch_eq_ok_iff.2 hr
    cases ha : r.advance? with
    | none =>
      simp only [RuleNumbers.advance, advance, hrule, bind, Except.bind, ha, DottedRule.advance?_eq_none_iff.1 ha]
      rfl
    | some r' =>
      have hc : ¬r.isComplete = true := by simp [← DottedRule.advance?_eq_none_iff, ha]
      simp only [RuleNumbers.advance, advance, hrule, bind, Except.bind, ha, if_neg hc, RuleNumbers.get, hmoved hr ha]
      rfl
  · simp only [RuleNumbers.next, next, rule_of_length_le hid]
    rfl
  · simp only [RuleNumbers.advance, advance, rule_of_length_le hid]
    rfl

end RuleTable

/-! ## Keeping up with the table -/

/-- What there is to keep of a rule. -/
def TableEntry.ofRule (g : Grammar) (r : DottedRule) : TableEntry :=
  ⟨r.production, r.position, r.lhs, r.postDot?, g.postDotLexerRuleId? r⟩

namespace IndexedTable

/-- A production and a position that are not found are entered with all there is to keep. -/
theorem get_of_index_eq_none {g : Grammar} {ix : IndexedTable} {production position : Nat}
    (h : ix.index (production, position) = none) : ix.get g production position =
      match g.dottedRule production position with
      | .error fault => (.error fault, ix)
      | .ok r => (.ok ix.entries.length, ix.enter (.ofRule g r)) := by
  rw [get, h, Grammar.dottedRule]
  cases g.production production with
  | error fault => rfl
  | ok p =>
    simp only [bind, Except.bind]
    split
    · rename_i hle
      simp only [pure, Except.pure, TableEntry.ofRule, DottedRule.position, List.length_take, Nat.min_eq_left hle,
        DottedRule.postDot?, Grammar.postDotLexerRuleId?, DottedRule.postDotLexerRule?, List.head?_drop]
    · rfl

/-- The table with an index has the rules of the other one, all of them rules of the
grammar, and finds just these. -/
structure Indexes (g : Grammar) (t : RuleTable) (ix : IndexedTable) : Prop where
  hasRule : ∀ r ∈ t.rules, g.HasRule r
  nodup : t.rules.Nodup
  entries_eq : ix.entries = t.rules.map (.ofRule g)
  index_iff : ∀ {production position id}, ix.index (production, position) = some id ↔
    ∃ r, t.rules[id]? = some r ∧ r.production = production ∧ r.position = position

namespace Indexes

variable {g : Grammar} {t : RuleTable} {ix : IndexedTable}

theorem empty (g : Grammar) : Indexes g .empty .empty :=
  ⟨by simp [RuleTable.empty], by simp [RuleTable.empty], rfl, by simp [RuleTable.empty, IndexedTable.empty]⟩

theorem length_entries (h : ix.Indexes g t) : ix.entries.length = t.rules.length := by
  rw [h.entries_eq, List.length_map]

theorem entry_eq_ok_iff (h : ix.Indexes g t) {id : RuleId} {e : TableEntry} :
    ix.entry id = .ok e ↔ ∃ r, t.rules[id]? = some r ∧ .ofRule g r = e := by
  rw [entry, fetch_eq_ok_iff, h.entries_eq, List.getElem?_map, Option.map_eq_some_iff]

theorem entry_eq (h : ix.Indexes g t) {id : RuleId} {r : DottedRule} (hr : t.rules[id]? = some r) :
    ix.entry id = .ok (.ofRule g r) :=
  h.entry_eq_ok_iff.2 ⟨r, hr, rfl⟩

/-- A rule that is found is the one that was asked for. -/
theorem found (h : ix.Indexes g t) {production position : Nat} {id : RuleId}
    (hid : ix.index (production, position) = some id) :
    ∃ r, g.dottedRule production position = .ok r ∧ r ∈ t.rules ∧ t.idOf r = id := by
  obtain ⟨r, hr, rfl, rfl⟩ := h.index_iff.1 hid
  obtain ⟨hlt, rfl⟩ := List.getElem?_eq_some_iff.1 hr
  have hmem := List.getElem_mem hlt
  exact ⟨_, (h.hasRule _ hmem).dottedRule_eq, hmem, h.nodup.idxOf_getElem id hlt⟩

/-- A rule that is not found is not in the table. -/
theorem not_found (h : ix.Indexes g t) {production position : Nat} {r : DottedRule}
    (hnone : ix.index (production, position) = none) (hr : g.dottedRule production position = .ok r) : r ∉ t.rules := by
  intro hmem
  obtain ⟨-, hproduction, hposition⟩ := Grammar.HasRule.of_dottedRule hr
  have hat : t.rules[t.idOf r]? = some r := fetch_eq_ok_iff.1 (RuleTable.rule_idOf hmem)
  rw [h.index_iff.2 ⟨r, hat, hproduction, hposition⟩] at hnone
  cases hnone

/-- A new rule of the grammar is entered on both sides. -/
theorem enter (h : ix.Indexes g t) {r : DottedRule} (hr : g.HasRule r) (hnew : r ∉ t.rules) :
    (ix.enter (.ofRule g r)).Indexes g (t.intern r) := by
  have hintern : t.intern r = ⟨t.rules ++ [r]⟩ := if_neg hnew
  have hnodup := RuleTable.nodup_intern h.nodup r
  rw [hintern] at hnodup ⊢
  refine ⟨fun r' hr' => ?_, hnodup, ?_, fun {production position id} => ?_⟩
  · rcases List.mem_append.1 hr' with hr' | hr'
    · exact h.hasRule r' hr'
    · exact List.mem_singleton.1 hr' ▸ hr
  · rw [IndexedTable.enter, h.entries_eq, List.map_append]
    rfl
  · simp only [IndexedTable.enter, h.length_entries, TableEntry.ofRule]
    by_cases hkey : (production, position) = (r.production, r.position)
    · obtain ⟨rfl, rfl⟩ := Prod.mk.inj hkey
      rw [Function.update_self, Option.some.injEq]
      constructor
      · rintro rfl
        exact ⟨r, by simp, rfl, rfl⟩
      · rintro ⟨r', hr', hproduction, hposition⟩
        -- Production and position determine the rule, and this one is at the end only.
        obtain rfl : r' = r := by
          rcases List.mem_append.1 (List.mem_of_getElem? hr') with hmem | hmem
          · exact (h.hasRule r' hmem).ext hr hproduction hposition
          · exact List.mem_singleton.1 hmem
        have hlast : (t.rules ++ [r'])[t.rules.length]? = some r' := by simp
        exact (List.getElem?_inj (by simp) hnodup).1 (hlast.trans hr'.symm)
    · rw [Function.update_of_ne hkey, h.index_iff]
      refine exists_congr fun r' => and_congr_left fun ⟨hproduction, hposition⟩ => ?_
      have hne : r ≠ r' := by
        rintro rfl
        exact hkey (by rw [hproduction, hposition])
      rw [List.getElem?_append]
      split
      · rfl
      · rename_i hlt
        rw [List.getElem?_eq_none_iff.2 (Nat.not_lt.1 hlt), List.getElem?_singleton]
        split <;> simp [hne]

theorem get (h : ix.Indexes g t) (production position : Nat) :
    (ix.get g production position).1 = (RuleNumbers.get g t production position).1 ∧
      (ix.get g production position).2.Indexes g (RuleNumbers.get g t production position).2 := by
  cases hid : ix.index (production, position) with
  | some id =>
    obtain ⟨r, hr, hmem, rfl⟩ := h.found hid
    have hintern : t.intern r = t := if_pos hmem
    simp only [RuleNumbers.get, RuleTable.get_eq_of_ok hr, hintern, RuleTable.settle, IndexedTable.get, hid]
    exact ⟨trivial, h⟩
  | none =>
    rw [get_of_index_eq_none hid]
    cases hr : g.dottedRule production position with
    | error fault =>
      simp only [RuleNumbers.get, RuleTable.get_eq_of_error hr, RuleTable.settle]
      exact ⟨trivial, h⟩
    | ok r =>
      have hnew := h.not_found hid hr
      simp only [RuleNumbers.get, RuleTable.get_eq_of_ok hr, RuleTable.settle]
      rw [h.length_entries, RuleTable.idOf, List.idxOf_eq_length hnew]
      exact ⟨rfl, h.enter (Grammar.HasRule.of_dottedRule hr).1 hnew⟩

/-- Such a table numbers the rules, too. -/
theorem numbers (h : ix.Indexes g t) : RuleNumbers.Numbers g t.rules ix := by
  have hcomplete : ∀ r, (TableEntry.ofRule g r).postDot.isNone = r.isComplete := fun r =>
    Bool.eq_iff_iff.2 (by rw [Option.isNone_iff_eq_none, TableEntry.ofRule, DottedRule.postDot?_eq_none_iff])
  have hnext : ∀ {id : RuleId} {r : DottedRule}, t.rules[id]? = some r → ix.next g id =
      if r.isComplete then (.ok none, ix) else RuleNumbers.place (ix.get g r.production (r.position + 1)) := fun hr => by
    simp only [next, h.entry_eq hr, hcomplete]
    rfl
  have hbeyond : ∀ {id : RuleId}, t.rules.length ≤ id → ix.entry id = .error (.outOfBounds t.rules.length id) := fun hid => by
    rw [entry, fetch_eq_error_iff, h.length_entries]
    exact ⟨hid, rfl⟩
  refine {
    get_of_error {production position fault} hr := ?_
    get_of_ok {production position r} hr := ?_
    next_eq := hnext
    advance_eq {id r} hr := ?_
    next_beyond hid := by simp only [RuleNumbers.next, next, hbeyond hid]
    advance_beyond hid := by simp only [RuleNumbers.advance, advance, next, hbeyond hid] }
  · cases hid : ix.index (production, position) with
    | some id =>
      obtain ⟨r, hr', -⟩ := h.found hid
      rw [hr] at hr'
      cases hr'
    | none =>
      simp only [RuleNumbers.get]
      rw [get_of_index_eq_none hid, hr]
  · obtain ⟨id, hid⟩ := (RuleTable.numbers h.hasRule).get_of_ok hr
    exact ⟨id, (h.get production position).1.trans hid⟩
  · simp only [RuleNumbers.advance, advance, hnext hr]
    cases hc : r.isComplete with
    | true =>
      -- The rule that the message shows is rebuilt from the production.
      have hrule : g.dottedRule r.production r.position = .ok r := (h.hasRule r (List.mem_of_getElem? hr)).dottedRule_eq
      simp only [↓reduceIte, complete, h.entry_eq hr, bind, Except.bind, TableEntry.ofRule, hrule]
      rfl
    | false =>
      simp only [Bool.false_eq_true, ↓reduceIte, RuleNumbers.place, RuleNumbers.get]
      cases hanswer : ix.get g r.production (r.position + 1) with
      | mk answer after => cases answer <;> rfl

/-- The answer to a call is that of the table without index. -/
theorem perform (h : ix.Indexes g t) (call : TableCall) :
    (RuleNumbers.perform g ix call).1 = (RuleNumbers.perform g t call).1 ∧
      (RuleNumbers.perform g ix call).2.Indexes g (RuleNumbers.perform g t call).2 := by
  rw [h.numbers.perform_eq, (RuleTable.numbers h.hasRule).perform_eq]
  split
  · exact ⟨rfl, h⟩
  · exact ⟨rfl, h⟩
  · rename_i production position _
    obtain ⟨hanswer, hafter⟩ := h.get production position
    exact ⟨congrArg (Except.map some) hanswer, hafter⟩

theorem performAll (h : ix.Indexes g t) (calls : List TableCall) :
    (RuleNumbers.performAll g ix calls).1 = (RuleNumbers.performAll g t calls).1 ∧
      (RuleNumbers.performAll g ix calls).2.Indexes g (RuleNumbers.performAll g t calls).2 := by
  induction calls generalizing t ix with
  | nil => exact ⟨rfl, h⟩
  | cons call calls ih =>
    obtain ⟨hanswer, hafter⟩ := h.perform call
    obtain ⟨hanswers, hafterAll⟩ := ih hafter
    simp only [RuleNumbers.performAll, hanswer, hanswers]
    exact ⟨trivial, hafterAll⟩

end Indexes

end IndexedTable

end ChartParser
