import ChartParser.Proofs.RuleTable.Indexed
/-!
# What the places of rules stand for

Any number of calls may have been made to a table with an index, and any of them may have
failed. Its places then stand for productions with a dot, each place for one and each of
these in one place. What is kept at a place is what the grammar has there, and it stays
whatever the later calls are (`rules_numbered`).
-/
namespace ChartParser

/-! ## Entries -/

/-- An entry has what the grammar says of its production, `p`, with the dot at its place. -/
structure TableEntry.Agrees (g : Grammar) (e : TableEntry) (p : Production) : Prop where
  production_eq : g.production e.production = .ok p
  position_le : e.position ≤ p.rhs.length
  lhs_eq : e.lhs = p.lhs
  postDot_eq : e.postDot = p.rhs[e.position]?
  postDotRule_iff : ∀ l, e.postDotRule = some l ↔ ∃ rule, e.postDot = some (.terminal rule) ∧ g.lexerRule l = .ok rule
  isSome_postDotRule : e.postDotRule.isSome = true ↔ ∃ rule, e.postDot = some (.terminal rule)

theorem Grammar.postDotLexerRuleId?_eq_some_iff {g : Grammar} {r : DottedRule} {l : LexerRuleId} :
    g.postDotLexerRuleId? r = some l ↔ ∃ rule, r.postDot? = some (.terminal rule) ∧ g.lexerRule l = .ok rule := by
  simp only [postDotLexerRuleId?, Option.bind_eq_some_iff, DottedRule.postDotLexerRule?_eq_some_iff,
    lexerRuleId?_eq_some_iff, lexerRule, fetch_eq_ok_iff]

theorem TableEntry.agrees_ofRule {g : Grammar} {r : DottedRule} (h : g.HasRule r) :
    (ofRule g r).Agrees g ⟨r.lhs, r.before ++ r.after⟩ where
  production_eq := fetch_eq_ok_iff.2 h
  position_le := by simp [ofRule, DottedRule.position]
  lhs_eq := rfl
  postDot_eq := by
    rw [ofRule, DottedRule.postDot?, DottedRule.position, List.getElem?_append_right (Nat.le_refl _), Nat.sub_self,
      List.head?_eq_getElem?]
  postDotRule_iff _ := Grammar.postDotLexerRuleId?_eq_some_iff
  isSome_postDotRule := by
    rw [Option.isSome_iff_exists]
    constructor
    · rintro ⟨l, hl⟩
      obtain ⟨rule, hrule, -⟩ := Grammar.postDotLexerRuleId?_eq_some_iff.1 hl
      exact ⟨rule, hrule⟩
    · rintro ⟨rule, hrule⟩
      -- A terminal in a right-hand side is among the lexer rules of the grammar.
      obtain ⟨rest, hrest⟩ := DottedRule.postDot?_eq_some_iff.1 hrule
      have hmem : rule ∈ g.lexerRules := Grammar.mem_lexerRules.2 ⟨_, List.mem_of_getElem? h, by simp [hrest]⟩
      obtain ⟨l, hl⟩ := List.mem_iff_getElem?.1 hmem
      exact ⟨l, Grammar.postDotLexerRuleId?_eq_some_iff.2 ⟨rule, hrule, fetch_eq_ok_iff.2 hl⟩⟩

/-! ## One call and many -/

theorem TableCall.request_of_extends {t t' : RuleTable} (ht : t.Extends t') {call : TableCall} {key : ProductionId × Nat}
    (h : call.request t.rules = .ok (some key)) : call.request t'.rules = .ok (some key) := by
  have hfetch : ∀ {id : RuleId} {r : DottedRule}, fetch t.rules id = .ok r → fetch t'.rules id = .ok r := fun hr =>
    fetch_eq_ok_iff.2 (ht.getElem? (fetch_eq_ok_iff.1 hr))
  cases call with
  | get production position => exact h
  | next id =>
    obtain ⟨r, hr, h⟩ := bind_eq_ok_iff.1 h
    exact bind_eq_ok_iff.2 ⟨r, hfetch hr, h⟩
  | advance id =>
    obtain ⟨r, hr, h⟩ := bind_eq_ok_iff.1 h
    exact bind_eq_ok_iff.2 ⟨r, hfetch hr, h⟩

/-- The rule at a place is followed by a place, or complete. -/
theorem RuleNumbers.Numbers.exists_next_iff {T : Type} [RuleNumbers T] {g : Grammar} {rules : List DottedRule} {t : T}
    (h : Numbers g rules t) (hrules : ∀ r ∈ rules, g.HasRule r) {id : RuleId} :
    (∃ answer, (next g t id).1 = .ok answer) ↔ id < rules.length := by
  cases hr : rules[id]? with
  | none =>
    have hle := List.getElem?_eq_none_iff.1 hr
    simp only [h.next_beyond hle, reduceCtorEq, exists_false, false_iff, Nat.not_lt, hle]
  | some r =>
    refine iff_of_true ?_ (List.getElem?_eq_some_iff.1 hr).1
    rw [h.next_eq hr]
    cases ha : r.advance? with
    | none => exact ⟨none, by rw [if_pos (DottedRule.advance?_eq_none_iff.1 ha)]⟩
    | some r' =>
      have hc : ¬r.isComplete = true := by simp [← DottedRule.advance?_eq_none_iff, ha]
      obtain ⟨next, hnext⟩ := h.get_of_ok ((hrules r (List.mem_of_getElem? hr)).dottedRule_succ ha)
      exact ⟨some next, by rw [if_neg hc, place, hnext]; rfl⟩

namespace IndexedTable.Indexes

variable {g : Grammar} {t t' : RuleTable} {ix ix' : IndexedTable}

theorem index_iff_entry (h : ix.Indexes g t) {production position : Nat} {id : RuleId} :
    ix.index (production, position) = some id ↔
      ∃ e, ix.entry id = .ok e ∧ e.production = production ∧ e.position = position := by
  rw [h.index_iff]
  constructor
  · rintro ⟨r, hr, hproduction, hposition⟩
    exact ⟨_, h.entry_eq hr, hproduction, hposition⟩
  · rintro ⟨e, he, hproduction, hposition⟩
    obtain ⟨r, hr, rfl⟩ := h.entry_eq_ok_iff.1 he
    exact ⟨r, hr, hproduction, hposition⟩

/-- The place determines the production and the position. -/
theorem key_unique (h : ix.Indexes g t) {key key' : ProductionId × Nat} {id : RuleId} (hkey : ix.index key = some id)
    (hkey' : ix.index key' = some id) : key = key' := by
  obtain ⟨r, hr, hproduction, hposition⟩ := h.index_iff.1 hkey
  obtain ⟨r', hr', hproduction', hposition'⟩ := h.index_iff.1 hkey'
  cases hr.symm.trans hr'
  exact Prod.ext (hproduction.symm.trans hproduction') (hposition.symm.trans hposition')

theorem existsUnique_index (h : ix.Indexes g t) {id : RuleId} :
    id < ix.entries.length ↔ ∃! key, ix.index key = some id := by
  rw [h.length_entries]
  constructor
  · intro hid
    have hr : t.rules[id]? = some t.rules[id] := List.getElem?_eq_getElem hid
    have hindex : ix.index (t.rules[id].production, t.rules[id].position) = some id := h.index_iff.2 ⟨_, hr, rfl, rfl⟩
    exact ⟨_, hindex, fun key hkey => h.key_unique hkey hindex⟩
  · rintro ⟨⟨production, position⟩, hkey, -⟩
    obtain ⟨r, hr, -⟩ := h.index_iff.1 hkey
    exact (List.getElem?_eq_some_iff.1 hr).1

theorem entry_of_extends (h : ix.Indexes g t) (h' : ix'.Indexes g t') (ht : t.Extends t') {id : RuleId} {e : TableEntry}
    (he : ix.entry id = .ok e) : ix'.entry id = .ok e := by
  obtain ⟨r, hr, rfl⟩ := h.entry_eq_ok_iff.1 he
  exact h'.entry_eq (ht.getElem? hr)

theorem index_of_extends (h : ix.Indexes g t) (h' : ix'.Indexes g t') (ht : t.Extends t') {key : ProductionId × Nat}
    {id : RuleId} (hid : ix.index key = some id) : ix'.index key = some id := by
  obtain ⟨r, hr, hkey⟩ := h.index_iff.1 hid
  exact h'.index_iff.2 ⟨r, ht.getElem? hr, hkey⟩

theorem extends_perform (h : ix.Indexes g t) (call : TableCall) : t.Extends (RuleNumbers.perform g t call).2 := by
  rw [(RuleTable.numbers h.hasRule).perform_eq]
  split
  · exact .refl t
  · exact .refl t
  · rename_i production position _
    simp only [RuleNumbers.place, RuleNumbers.get]
    cases hget : t.get g production position with
    | error fault => exact .refl t
    | ok answer => exact RuleTable.extends_of_get hget

theorem extends_performAll (h : ix.Indexes g t) (calls : List TableCall) :
    t.Extends (RuleNumbers.performAll g t calls).2 := by
  induction calls generalizing t ix with
  | nil => exact .refl t
  | cons call calls ih => exact (h.extends_perform call).trans (ih (h.perform call).2)

/-- What is entered is found afterwards. -/
theorem index_of_get (h : ix.Indexes g t) {production position : Nat} {id : RuleId}
    (hid : (ix.get g production position).1 = .ok id) :
    (ix.get g production position).2.index (production, position) = some id := by
  obtain ⟨hanswer, hafter⟩ := h.get production position
  rw [hid] at hanswer
  cases hr : g.dottedRule production position with
  | error fault =>
    simp only [RuleNumbers.get, RuleTable.get_eq_of_error hr, RuleTable.settle] at hanswer
    cases hanswer
  | ok r =>
    simp only [RuleNumbers.get, RuleTable.get_eq_of_ok hr, RuleTable.settle] at hanswer hafter
    cases hanswer
    obtain ⟨-, hproduction, hposition⟩ := Grammar.HasRule.of_dottedRule hr
    exact hafter.index_iff.2 ⟨r, t.getElem?_idOf_intern r, hproduction, hposition⟩

/-- A place that is answered is that of the production and the position asked for. -/
theorem index_of_perform (h : ix.Indexes g t) {call : TableCall} {id : RuleId}
    (hid : (RuleNumbers.perform g ix call).1 = .ok (some id)) :
    ∃ key, call.request t.rules = .ok (some key) ∧ (RuleNumbers.perform g ix call).2.index key = some id := by
  rw [h.numbers.perform_eq] at hid ⊢
  match hrequest : call.request t.rules with
  | .error _ => rw [hrequest] at hid; cases hid
  | .ok none => rw [hrequest] at hid; cases hid
  | .ok (some (production, position)) =>
    rw [hrequest] at hid
    refine ⟨(production, position), rfl, h.index_of_get ?_⟩
    dsimp only [RuleNumbers.place, RuleNumbers.get] at hid
    cases hanswer : (ix.get g production position).1 with
    | error fault =>
      rw [hanswer] at hid
      cases hid
    | ok id' =>
      rw [hanswer] at hid
      cases hid
      rfl

/-- It is so for all answers, and still after the last call. -/
theorem index_of_performAll (h : ix.Indexes g t) {calls : List TableCall} {call : TableCall} {id : RuleId}
    (hid : (call, .ok (some id)) ∈ calls.zip (RuleNumbers.performAll g ix calls).1) :
    ∃ key, call.request (RuleNumbers.performAll g t calls).2.rules = .ok (some key) ∧
      (RuleNumbers.performAll g ix calls).2.index key = some id := by
  induction calls generalizing t ix with
  | nil => cases hid
  | cons call' calls ih =>
    obtain ⟨-, hafter⟩ := h.perform call'
    rcases List.mem_cons.1 hid with hid | hid
    · obtain ⟨rfl, hid⟩ := Prod.mk.inj hid
      obtain ⟨key, hrequest, hkey⟩ := h.index_of_perform hid.symm
      have hext := hafter.extends_performAll calls
      refine ⟨key, TableCall.request_of_extends ((h.extends_perform call).trans hext) hrequest, ?_⟩
      exact hafter.index_of_extends (hafter.performAll calls).2 hext hkey
    · exact ih hafter hid

/-- Two calls that were answered places were answered the same place if and only if they
asked for the same. -/
theorem got_eq_iff (h : ix.Indexes g t) {calls : List TableCall} {production position production' position' : Nat}
    {id id' : RuleId} (hid : (.get production position, .ok (some id)) ∈ calls.zip (RuleNumbers.performAll g ix calls).1)
    (hid' : (.get production' position', .ok (some id')) ∈ calls.zip (RuleNumbers.performAll g ix calls).1) :
    id = id' ↔ production = production' ∧ position = position' := by
  obtain ⟨key, hrequest, hkey⟩ := h.index_of_performAll hid
  obtain ⟨key', hrequest', hkey'⟩ := h.index_of_performAll hid'
  cases hrequest
  cases hrequest'
  rw [← Prod.mk.injEq]
  constructor
  · rintro rfl
    exact (h.performAll calls).2.key_unique hkey hkey'
  · intro heq
    rw [heq, hkey'] at hkey
    exact (Option.some.inj hkey).symm

end IndexedTable.Indexes

/-! ## All places -/

open RuleNumbers

/-- What two tables, the second with an index, are like after calls with these answers. -/
structure Numbered (g : Grammar) (calls : List TableCall) (answers : List (Except Fault (Option RuleId)))
    (t : RuleTable) (ix : IndexedTable) : Prop where
  entries_eq : ix.entries = t.rules.map (.ofRule g)
  entry_agrees : ∀ {id e}, ix.entry id = .ok e → ∃ p, e.Agrees g p
  index_iff : ∀ {production position id}, ix.index (production, position) = some id ↔
    ∃ e, ix.entry id = .ok e ∧ e.production = production ∧ e.position = position
  existsUnique_index : ∀ {id}, id < ix.entries.length ↔ ∃! key, ix.index key = some id
  numbers : Numbers g t.rules t ∧ Numbers g t.rules ix
  exists_get_iff : ∀ {production position}, (∃ id, (get g ix production position).1 = .ok id) ↔
    ∃ p, g.production production = .ok p ∧ position ≤ p.rhs.length
  exists_next_iff : ∀ {id}, (∃ answer, (next g ix id).1 = .ok answer) ↔ id < ix.entries.length
  failed : ∀ {call fault}, (perform g ix call).1 = .error fault → (perform g t call).2 = t ∧ (perform g ix call).2 = ix
  answered : ∀ {call id}, (call, .ok (some id)) ∈ calls.zip answers →
    ∃ key, call.request t.rules = .ok (some key) ∧ ix.index key = some id
  got_eq_iff : ∀ {production position id production' position' id'},
    (.get production position, .ok (some id)) ∈ calls.zip answers →
    (.get production' position', .ok (some id')) ∈ calls.zip answers →
    (id = id' ↔ production = production' ∧ position = position')
  rules_kept : ∀ more, t.rules <+: (performAll g t more).2.rules
  entry_kept : ∀ {id e} more, ix.entry id = .ok e → (performAll g ix more).2.entry id = .ok e
  index_kept : ∀ {key id} more, ix.index key = some id → (performAll g ix more).2.index key = some id

/-- For every grammar and after every sequence of calls to a new table, those that fail
among them: the table without and the table with an index have given the same answers, and
what they have numbered is what is entered, found, kept and still to be had. -/
theorem rules_numbered (g : Grammar) (calls : List TableCall) :
    ∃ answers t ix, performAll g RuleTable.empty calls = (answers, t) ∧
      performAll g IndexedTable.empty calls = (answers, ix) ∧ Numbered g calls answers t ix := by
  have hempty := IndexedTable.Indexes.empty g
  obtain ⟨hanswers, h⟩ := hempty.performAll calls
  have hnumbers := RuleTable.numbers h.hasRule
  refine ⟨_, _, (performAll g IndexedTable.empty calls).2, rfl, Prod.ext hanswers rfl, ?_⟩
  rw [← hanswers]
  refine {
    entries_eq := h.entries_eq
    entry_agrees := fun {id e} he => ?_
    index_iff := h.index_iff_entry
    existsUnique_index := h.existsUnique_index
    numbers := ⟨hnumbers, h.numbers⟩
    exists_get_iff := h.numbers.exists_get_iff
    exists_next_iff := fun {id} => ?_
    failed := fun {call fault} hcall => ⟨?_, h.numbers.perform_eq_of_error hcall⟩
    answered := hempty.index_of_performAll
    got_eq_iff := hempty.got_eq_iff
    rules_kept := fun more => (h.extends_performAll more).isPrefix
    entry_kept := fun more => h.entry_of_extends (h.performAll more).2 (h.extends_performAll more)
    index_kept := fun more => h.index_of_extends (h.performAll more).2 (h.extends_performAll more) }
  · obtain ⟨r, hr, rfl⟩ := h.entry_eq_ok_iff.1 he
    exact ⟨_, TableEntry.agrees_ofRule (h.hasRule r (List.mem_of_getElem? hr))⟩
  · rw [h.length_entries]
    exact h.numbers.exists_next_iff h.hasRule
  · exact hnumbers.perform_eq_of_error ((h.perform call).1.symm.trans hcall)

end ChartParser
