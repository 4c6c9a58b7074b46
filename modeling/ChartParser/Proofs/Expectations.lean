import ChartParser.Expectations
import ChartParser.Proofs.Grammar.Construction
import ChartParser.Proofs.InStep
import ChartParser.Proofs.Success
/-!
# Collecting expected lexer rules

Marks and kept answers make no difference: what is collected is the grammar's
lexer rules at the given places (`Expectations.collect_spec`), once each and in
grammar order (`Grammar.inOrder_rulesAt`).
-/
namespace ChartParser

/-- The places in the grammar that are given, once each and in increasing order. -/
def Grammar.placesAmong (g : Grammar) (ids : List LexerRuleId) : List LexerRuleId :=
  (List.range g.lexerRules.length).filter (· ∈ ids)

/-- The lexer rules at the given places, once each and in grammar order. -/
def Grammar.rulesAt (g : Grammar) (ids : List LexerRuleId) : List LexerRule :=
  (g.placesAmong ids).filterMap (g.lexerRules[·]?)

theorem Grammar.lt_of_mem_placesAmong {g : Grammar} {ids : List LexerRuleId} :
    ∀ id ∈ g.placesAmong ids, id < g.lexerRules.length :=
  fun _ h => List.mem_range.1 (List.mem_filter.1 h).1

theorem Grammar.pairwise_placesAmong (g : Grammar) (ids : List LexerRuleId) : (g.placesAmong ids).Pairwise (· < ·) :=
  List.pairwise_lt_range.filter _

theorem Grammar.rulesAt_congr {g : Grammar} {ids ids' : List LexerRuleId} (h : ∀ id, id ∈ ids ↔ id ∈ ids') :
    g.rulesAt ids = g.rulesAt ids' := by
  simp only [rulesAt, placesAmong, h]

/-- The rules stand in grammar order, none twice. -/
def Grammar.InOrder (g : Grammar) (rules : List LexerRule) : Prop :=
  ∃ ids : List LexerRuleId, ids.Pairwise (· < ·) ∧ rules.map g.lexerRuleId? = ids.map some

theorem Grammar.inOrder_rulesAt (g : Grammar) (ids : List LexerRuleId) : g.InOrder (g.rulesAt ids) := by
  refine ⟨g.placesAmong ids, g.pairwise_placesAmong ids, ?_⟩
  have hlt : ∀ id ∈ g.placesAmong ids, id < g.lexerRules.length := lt_of_mem_placesAmong
  rw [rulesAt]
  generalize g.placesAmong ids = places at hlt
  induction places with
  | nil => rfl
  | cons id places ih =>
    have hid := List.getElem?_eq_getElem (hlt id (by simp))
    rw [List.filterMap_cons_some hid, List.map_cons, List.map_cons, lexerRuleId?_eq_some_iff.2 hid,
      ih fun id hid => hlt id (by simp [hid])]

/-- A lexer rule of the grammar has a place in it. -/
theorem Grammar.lt_of_postDotLexerRuleId? {g : Grammar} {r : DottedRule} {id : LexerRuleId}
    (h : g.postDotLexerRuleId? r = some id) : id < g.lexerRules.length := by
  obtain ⟨l, -, hl⟩ := Option.bind_eq_some_iff.1 h
  exact (List.findIdx?_eq_some_iff_getElem.1 hl).1

theorem mapM_lexerRule {g : Grammar} {ids : List LexerRuleId} (h : ∀ id ∈ ids, id < g.lexerRules.length) :
    ids.mapM g.lexerRule = .ok (ids.filterMap (g.lexerRules[·]?)) := by
  induction ids with
  | nil => rfl
  | cons id ids ih =>
    have hid := List.getElem?_eq_getElem (h id (by simp))
    rw [List.mapM_cons, ih fun id hid => h id (by simp [hid]), Grammar.lexerRule, fetch_eq_ok_iff.2 hid]
    simp [hid, bind, Except.bind, pure, Except.pure]

theorem Grammar.mapM_placesAmong (g : Grammar) (ids : List LexerRuleId) :
    (g.placesAmong ids).mapM g.lexerRule = .ok (g.rulesAt ids) :=
  mapM_lexerRule lt_of_mem_placesAmong

namespace Expectations

/-- All marks are down, and the answer kept for some places is the one they would
get. -/
structure Valid (g : Grammar) (e : Expectations) : Prop where
  marked_eq : e.marked = List.replicate g.lexerRules.length false
  answer_eq : ∀ key rules, (key, rules) ∈ e.answers → rules = key.filterMap (g.lexerRules[·]?)

theorem valid_ofGrammar (g : Grammar) : Valid g (.ofGrammar g) := ⟨rfl, by simp [ofGrammar]⟩

theorem foldlM_mark_spec {marked : List Bool} {ids : List LexerRuleId} (h : ∀ id ∈ ids, id < marked.length) :
    Succeeds (ids.foldlM mark marked) fun marked' => marked'.length = marked.length ∧
      ∀ i, marked'[i]? = some true ↔ i ∈ ids ∨ marked[i]? = some true := by
  induction ids generalizing marked with
  | nil => exact .pure ⟨rfl, by simp⟩
  | cons id ids ih =>
    have hid := h id (by simp)
    have hmark : mark marked id = .ok (marked.set id true) := by
      simp [mark, fetch_eq_ok_iff.2 (List.getElem?_eq_getElem hid), bind, Except.bind, pure, Except.pure]
    rw [List.foldlM_cons]
    refine .bind_ok hmark ((ih fun i hi => by simpa using h i (by simp [hi])).mono ?_)
    rintro marked' ⟨hlen, hm⟩
    refine ⟨by simpa using hlen, fun i => ?_⟩
    rw [hm, List.getElem?_set, List.mem_cons]
    by_cases hi : id = i
    · subst hi
      simp [hid]
    · simp [hi, Ne.symm hi]

/-- With all marks down a call looks for the places given, and else puts their rules together. -/
theorem collect_eq {g : Grammar} {e : Expectations} (hmarked : e.marked = List.replicate g.lexerRules.length false)
    {ids : List LexerRuleId} (hids : ∀ id ∈ ids, id < g.lexerRules.length) : e.collect g ids =
      match e.answers.lookup (g.placesAmong ids) with
      | some rules => .ok (rules, e)
      | none => .ok (g.rulesAt ids, { e with answers := e.answers ++ [(g.placesAmong ids, g.rulesAt ids)] }) := by
  have hlen : e.marked.length = g.lexerRules.length := by simp [hmarked]
  obtain ⟨marked, hmark, hlen', hm⟩ := foldlM_mark_spec (hlen ▸ hids)
  have hdown : ∀ i : Nat, e.marked[i]? ≠ some true := by
    intro i
    rw [hmarked, List.getElem?_replicate]
    split <;> simp
  have hkey : raised marked = g.placesAmong ids := by
    simp only [raised, Grammar.placesAmong, hlen', hlen, hm, hdown, or_false]
  have hclear : clear marked (g.placesAmong ids) = e.marked := by rw [← hkey, clear_raised, hlen', hlen, hmarked]
  simp only [collect, hmark, bind, Except.bind, hkey, hclear, g.mapM_placesAmong]
  rfl

theorem collect_spec {g : Grammar} {e : Expectations} (h : Valid g e) {ids : List LexerRuleId}
    (hids : ∀ id ∈ ids, id < g.lexerRules.length) :
    Succeeds (e.collect g ids) fun x => x.1 = g.rulesAt ids ∧ Valid g x.2 := by
  rw [collect_eq h.marked_eq hids]
  -- A kept answer is the one that would be put together now.
  split
  · rename_i rules hl
    obtain ⟨l₁, l₂, ha, -⟩ := List.lookup_eq_some_iff.1 hl
    have hmem : (g.placesAmong ids, rules) ∈ e.answers := by simp [ha]
    exact .pure ⟨h.answer_eq _ _ hmem, h⟩
  · refine .pure ⟨rfl, h.marked_eq, fun key rules hmem => ?_⟩
    rcases List.mem_append.1 hmem with hmem | hmem
    · exact h.answer_eq key rules hmem
    · cases List.mem_singleton.1 hmem
      rfl

/-- Expectations that `E` relates collect the same rules and stay related. -/
def Interchangeable (g : Grammar) (E : Expectations → Expectations → Prop) : Prop :=
  ∀ ⦃e e' ids⦄, E e e' → (∀ id ∈ ids, id < g.lexerRules.length) →
    InStep (fun x y => x.1 = y.1 ∧ E x.2 y.2) (e.collect g ids) (e'.collect g ids)

theorem interchangeable_eq (g : Grammar) : Interchangeable g Eq := by
  rintro e _ ids rfl -
  exact (InStep.refl _).mono fun x y hxy => ⟨congrArg Prod.fst hxy, congrArg Prod.snd hxy⟩

end Expectations

end ChartParser
