import ChartParser.Fault
/-!
# Tables of dotted rules

A table numbers dotted rules in order of first use. A rule is entered at most
once, entries never move, and a call that fails enters nothing.
-/
namespace ChartParser

/-- The place of a dotted rule in a table. -/
abbrev RuleId := Nat

def renderRuleId (id : RuleId) : String := "r" ++ toString id

/-- Dotted rules in order of first use. -/
structure RuleTable where
  rules : List DottedRule

namespace RuleTable

def empty : RuleTable := ⟨[]⟩

def size (t : RuleTable) : Nat := t.rules.length

def isEmpty (t : RuleTable) : Bool := t.rules.isEmpty

/-- The table with `r` entered, unless it was. -/
def intern (t : RuleTable) (r : DottedRule) : RuleTable :=
  if r ∈ t.rules then t else ⟨t.rules ++ [r]⟩

/-- The table with the rules entered one after the other. -/
def internAll (t : RuleTable) (rules : List DottedRule) : RuleTable := rules.foldl intern t

/-- The place of `r`; for a rule that is not there, the place it would get. -/
def idOf (t : RuleTable) (r : DottedRule) : RuleId := t.rules.idxOf r

/-- The given rules without repetition, in the order of their places. -/
def inOrder (t : RuleTable) (rules : List DottedRule) : List DottedRule := t.rules.filter (· ∈ rules)

/-- The rule at `id`. -/
def rule (t : RuleTable) (id : RuleId) : Except Fault DottedRule := fetch t.rules id

/-- The place of a production with a dot at `position`, entered on first use. -/
def get (t : RuleTable) (g : Grammar) (id : ProductionId) (position : Nat) :
    Except Fault (RuleId × RuleTable) := do
  let r ← g.dottedRule id position
  return (t.idOf r, t.intern r)

/-- The place of the rule at `id` with its dot moved over one symbol; none for
a complete rule. -/
def next (t : RuleTable) (id : RuleId) : Except Fault (Option RuleId × RuleTable) := do
  match (← t.rule id).advance? with
  | none => return (none, t)
  | some r => return (some (t.idOf r), t.intern r)

/-- Like `next`, for rules that are not complete. -/
def advance (t : RuleTable) (id : RuleId) : Except Fault (RuleId × RuleTable) := do
  let r ← t.rule id
  match r.advance? with
  | none => throw (.alreadyComplete r)
  | some r' => return (t.idOf r', t.intern r')

/-! ## Entering a rule -/

@[simp] theorem mem_intern {t : RuleTable} {r x : DottedRule} :
    x ∈ (t.intern r).rules ↔ x ∈ t.rules ∨ x = r := by
  unfold intern
  split <;> grind

/-- A rule is at its place once it has been entered. -/
theorem getElem?_idOf_intern (t : RuleTable) (r : DottedRule) :
    (t.intern r).rules[t.idOf r]? = some r := by
  unfold intern idOf
  split
  · rename_i h
    rw [List.getElem?_eq_getElem (List.idxOf_lt_length_iff.2 h), List.getElem_idxOf]
  · rename_i h
    rw [List.idxOf_eq_length h]
    simp

theorem rule_idOf {t : RuleTable} {r : DottedRule} (h : r ∈ t.rules) : t.rule (t.idOf r) = .ok r := by
  have hlt : t.rules.idxOf r < t.rules.length := List.idxOf_lt_length_iff.2 h
  rw [rule, idOf, fetch_eq_ok_iff, List.getElem?_eq_getElem hlt, List.getElem_idxOf]

theorem mem_of_rule {t : RuleTable} {id : RuleId} {r : DottedRule} (h : t.rule id = .ok r) : r ∈ t.rules :=
  List.mem_of_getElem? (fetch_eq_ok_iff.1 h)

theorem rule_of_length_le {t : RuleTable} {id : RuleId} (h : t.rules.length ≤ id) :
    t.rule id = .error (.outOfBounds t.rules.length id) :=
  fetch_eq_error_iff.2 ⟨h, rfl⟩

theorem get_eq_of_ok {t : RuleTable} {g : Grammar} {id position : Nat} {r : DottedRule} (h : g.dottedRule id position = .ok r) :
    t.get g id position = .ok (t.idOf r, t.intern r) := by
  rw [get, h]
  rfl

theorem get_eq_of_error {t : RuleTable} {g : Grammar} {id position : Nat} {fault : Fault}
    (h : g.dottedRule id position = .error fault) : t.get g id position = .error fault := by
  rw [get, h]
  rfl

/-- Entries never move. -/
theorem prefix_intern (t : RuleTable) (r : DottedRule) : t.rules <+: (t.intern r).rules := by
  unfold intern
  split
  · exact List.prefix_refl _
  · exact List.prefix_append _ _

theorem nodup_intern {t : RuleTable} (h : t.rules.Nodup) (r : DottedRule) : (t.intern r).rules.Nodup := by
  unfold intern
  split
  · exact h
  · rename_i hr
    exact List.nodup_append.2 ⟨h, by simp, by
      intro a ha b hb
      simp only [List.mem_singleton] at hb
      subst hb
      rintro rfl
      exact hr ha⟩

@[simp] theorem mem_internAll {t : RuleTable} {rules : List DottedRule} {x : DottedRule} :
    x ∈ (t.internAll rules).rules ↔ x ∈ t.rules ∨ x ∈ rules := by
  induction rules generalizing t with
  | nil => simp [internAll]
  | cons r rules ih =>
    simp only [internAll, List.foldl_cons] at ih ⊢
    rw [ih, mem_intern]
    grind

@[simp] theorem mem_inOrder {t : RuleTable} {rules : List DottedRule} {x : DottedRule} :
    x ∈ t.inOrder rules ↔ x ∈ t.rules ∧ x ∈ rules := by
  simp [inOrder]

/-! ## Growth -/

variable {t t' t'' : RuleTable}

/-- A call to the table at most enters a rule at its end. -/
structure Extends (t t' : RuleTable) : Prop where
  isPrefix : t.rules <+: t'.rules
  nodup : t.rules.Nodup → t'.rules.Nodup

theorem Extends.refl (t : RuleTable) : t.Extends t := ⟨List.prefix_refl _, id⟩

theorem Extends.trans (h : t.Extends t') (h' : t'.Extends t'') : t.Extends t'' :=
  ⟨h.isPrefix.trans h'.isPrefix, h'.nodup ∘ h.nodup⟩

/-- A rule keeps its place. -/
theorem Extends.getElem? (h : t.Extends t') {id : RuleId} {r : DottedRule} (hr : t.rules[id]? = some r) :
    t'.rules[id]? = some r := by
  obtain ⟨more, hmore⟩ := h.isPrefix
  rw [← hmore, List.getElem?_append_left (List.getElem?_eq_some_iff.1 hr).1, hr]

theorem Extends.intern (t : RuleTable) (r : DottedRule) : t.Extends (t.intern r) :=
  ⟨t.prefix_intern r, fun h => nodup_intern h r⟩

theorem extends_of_get {g : Grammar} {production : ProductionId} {position : Nat} {id : RuleId}
    (h : t.get g production position = .ok (id, t')) : t.Extends t' := by
  obtain ⟨r, -, h⟩ := bind_eq_ok_iff.1 h
  cases h
  exact .intern t r

theorem extends_of_next {id : RuleId} {next : Option RuleId} (h : t.next id = .ok (next, t')) : t.Extends t' := by
  obtain ⟨r, -, h⟩ := bind_eq_ok_iff.1 h
  split at h
  · cases h
    exact .refl t
  · cases h
    exact .intern t _

end RuleTable

end ChartParser
