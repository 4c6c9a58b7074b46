import Mathlib.Data.List.Sort
import Mathlib.Logic.Function.Basic
import ChartParser.Proofs.Expectations
/-!
# Calls that keep answers

Lexer rules are collected call by call, with marks, with places noted on the way and with
answers that are kept for later calls. None of this shows: a call gets the rules at its
own places, whatever was asked before, and leaves all marks down and an answer for its set
of places, which is the one that was given (`collection_transparent`).
-/
namespace ChartParser

/-! ## What a call should get -/

/-- The rules at the places `ids`, each once and in the order of their places. -/
structure Grammar.Collected (g : Grammar) (ids : List LexerRuleId) (rules : List LexerRule) : Prop where
  places : ∃ places : List LexerRuleId, places.Pairwise (· < ·) ∧ (∀ id, id ∈ places ↔ id ∈ ids) ∧
    places.mapM g.lexerRule = .ok rules
  mem_iff : ∀ r, r ∈ rules ↔ ∃ id ∈ ids, g.lexerRule id = .ok r
  nodup : rules.Nodup

namespace Grammar

variable {g : Grammar} {ids : List LexerRuleId}

theorem mem_placesAmong (hids : ∀ id ∈ ids, id < g.lexerRules.length) {id : LexerRuleId} :
    id ∈ g.placesAmong ids ↔ id ∈ ids := by
  rw [placesAmong, List.mem_filter, List.mem_range, decide_eq_true_eq, and_iff_right_iff_imp]
  exact hids id

/-- An increasing list of places is determined by what is in it. -/
theorem placesAmong_eq_iff (hids : ∀ id ∈ ids, id < g.lexerRules.length) {key : List LexerRuleId} :
    g.placesAmong ids = key ↔ key.Pairwise (· < ·) ∧ ∀ id, id ∈ key ↔ id ∈ ids := by
  constructor
  · rintro rfl
    exact ⟨g.pairwise_placesAmong ids, fun id => mem_placesAmong hids⟩
  · rintro ⟨hkey, hmem⟩
    exact (g.pairwise_placesAmong ids).eq_of_mem_iff hkey fun id => (mem_placesAmong hids).trans (hmem id).symm

theorem collected_rulesAt (hids : ∀ id ∈ ids, id < g.lexerRules.length) : g.Collected ids (g.rulesAt ids) where
  places := ⟨g.placesAmong ids, g.pairwise_placesAmong ids, fun _ => mem_placesAmong hids, g.mapM_placesAmong ids⟩
  mem_iff r := by
    rw [rulesAt, List.mem_filterMap]
    simp only [mem_placesAmong hids, lexerRule, fetch_eq_ok_iff]
  nodup := by
    refine (g.pairwise_placesAmong ids).nodup.filterMap fun id id' r hid hid' => ?_
    rw [Option.mem_def, ← lexerRuleId?_eq_some_iff] at hid hid'
    exact Option.some.inj (hid.symm.trans hid')

end Grammar

/-! ## Collectors -/

/-- Marks for the lexer rules of a grammar, and answers kept by places. With all marks
down and a right answer, if any, kept for the places at hand, a call answers right, puts
all marks down again and keeps its answer. -/
class Collector (C : Type) where
  fresh : Grammar → C
  marked : C → List Bool
  kept : C → List LexerRuleId → Option (List LexerRule)
  collect : Grammar → C → List LexerRuleId → Except Fault (List LexerRule × C)
  marked_fresh : ∀ g, marked (fresh g) = List.replicate g.lexerRules.length false
  kept_fresh : ∀ g key, kept (fresh g) key = none
  collect_spec : ∀ {g c ids}, marked c = List.replicate g.lexerRules.length false →
    (∀ id ∈ ids, id < g.lexerRules.length) → (∀ rules ∈ kept c (g.placesAmong ids), rules = g.rulesAt ids) →
    Succeeds (collect g c ids) fun x => x.1 = g.rulesAt ids ∧ marked x.2 = marked c ∧
      kept x.2 = Function.update (kept c) (g.placesAmong ids) (some (g.rulesAt ids))

instance : Collector Expectations where
  fresh := .ofGrammar
  marked := Expectations.marked
  kept e key := e.answers.lookup key
  collect g e ids := e.collect g ids
  marked_fresh _ := rfl
  kept_fresh _ _ := rfl
  collect_spec {g e ids} hmarked hids hkept := by
    rw [Expectations.collect_eq hmarked hids]
    split
    · rename_i rules hrules
      cases hkept rules hrules
      exact .pure ⟨rfl, rfl, (Function.update_eq_self_iff.2 hrules.symm).symm⟩
    · rename_i hnone
      refine .pure ⟨rfl, rfl, funext fun key => ?_⟩
      rw [List.lookup_append]
      by_cases hkey : key = g.placesAmong ids
      · subst hkey
        simp [hnone]
      · have hne : (key == g.placesAmong ids) = false := beq_false_of_ne hkey
        simp [Function.update_of_ne hkey, List.lookup_cons, hne]

namespace Collector

variable {C : Type} [Collector C] {g : Grammar} {c : C} {asked : List (List LexerRuleId)}

/-- All calls, one after the other. -/
def collectAll (g : Grammar) (c : C) : List (List LexerRuleId) → Except Fault (List (List LexerRule) × C)
  | [] => return ([], c)
  | ids :: calls => do
    let (rules, c) ← collect g c ids
    let (answers, c) ← collectAll g c calls
    return (rules :: answers, c)

/-- The marks are down, and what is kept are the answers to what was asked. -/
structure Keeps (g : Grammar) (asked : List (List LexerRuleId)) (c : C) : Prop where
  marked_eq : marked c = List.replicate g.lexerRules.length false
  kept_iff : ∀ {key rules}, kept c key = some rules ↔ ∃ ids ∈ asked, g.placesAmong ids = key ∧ g.rulesAt ids = rules

theorem keeps_fresh (g : Grammar) : Keeps g [] (fresh g : C) := ⟨marked_fresh g, by simp [kept_fresh]⟩

theorem Keeps.collect (h : Keeps g asked c) {ids : List LexerRuleId} (hids : ∀ id ∈ ids, id < g.lexerRules.length) :
    Succeeds (Collector.collect g c ids) fun x => x.1 = g.rulesAt ids ∧ Keeps g (asked ++ [ids]) x.2 := by
  have hkept : ∀ rules ∈ kept c (g.placesAmong ids), rules = g.rulesAt ids := by
    intro rules hrules
    obtain ⟨ids', -, hplaces, rfl⟩ := h.kept_iff.1 hrules
    exact congrArg (List.filterMap (g.lexerRules[·]?)) hplaces
  refine (collect_spec h.marked_eq hids hkept).mono fun x ⟨hx, hmarked, hafter⟩ =>
    ⟨hx, hmarked.trans h.marked_eq, ?_⟩
  intro key rules
  simp only [hafter, List.mem_append, List.mem_singleton, or_and_right, exists_or, exists_eq_left]
  by_cases hkey : g.placesAmong ids = key
  · subst hkey
    rw [Function.update_self, Option.some.injEq]
    simp only [true_and]
    exact ⟨.inr, fun hrules => hrules.elim (fun hold => (hkept rules (h.kept_iff.2 hold)).symm) id⟩
  · rw [Function.update_of_ne (Ne.symm hkey), h.kept_iff]
    simp [hkey]

theorem Keeps.collectAll (h : Keeps g asked c) {calls : List (List LexerRuleId)}
    (hcalls : ∀ ids ∈ calls, ∀ id ∈ ids, id < g.lexerRules.length) :
    Succeeds (Collector.collectAll g c calls) fun x => x.1 = calls.map g.rulesAt ∧ Keeps g (asked ++ calls) x.2 := by
  induction calls generalizing asked c with
  | nil => exact .pure ⟨rfl, by simpa using h⟩
  | cons ids calls ih =>
    refine (h.collect (hcalls ids (by simp))).bind fun (rules, c') ⟨hrules, hc'⟩ => ?_
    have hrest := ih hc' fun ids' hids' => hcalls ids' (by simp [hids'])
    refine hrest.bind fun (answers, c'') ⟨hanswers, hc''⟩ => .pure ⟨?_, ?_⟩
    · exact congrArg₂ List.cons hrules hanswers
    · simpa using hc''

/-- What every call keeps is kept by all of them. -/
theorem collectAll_keeps {I : C → Prop} (hstep : ∀ {c ids x}, collect g c ids = .ok x → I c → I x.2)
    {calls : List (List LexerRuleId)} {x : List (List LexerRule) × C} (hall : collectAll g c calls = .ok x) (h : I c) :
    I x.2 := by
  induction calls generalizing c x with
  | nil =>
    cases hall
    exact h
  | cons ids calls ih =>
    obtain ⟨y, hy, hall⟩ := bind_eq_ok_iff.1 hall
    obtain ⟨z, hz, hall⟩ := bind_eq_ok_iff.1 hall
    cases hall
    have hrest := ih hz (hstep hy h)
    exact hrest

end Collector

/-- No places are kept twice. -/
theorem Expectations.nodup_collect {g : Grammar} {e : Expectations} {ids : List LexerRuleId}
    {x : List LexerRule × Expectations} (hx : e.collect g ids = .ok x) (h : (e.answers.map Prod.fst).Nodup) :
    (x.2.answers.map Prod.fst).Nodup := by
  obtain ⟨marked, -, hx⟩ := bind_eq_ok_iff.1 hx
  dsimp only at hx
  split at hx
  · cases hx
    exact h
  · rename_i hnone
    obtain ⟨rules, -, hx⟩ := bind_eq_ok_iff.1 hx
    cases hx
    rw [List.lookup_eq_none_iff] at hnone
    rw [List.map_append, List.nodup_append]
    refine ⟨h, by simp, fun key hkey key' hkey' => ?_⟩
    rw [List.map_singleton, List.mem_singleton] at hkey'
    obtain ⟨entry, hentry, rfl⟩ := List.mem_map.1 hkey
    rw [hkey']
    exact fun heq => bne_iff_ne.1 (hnone entry hentry) heq.symm

/-! ## Noting places -/

/-- Marks, the places noted by the call at hand, in the order in which they came, and the
answers, found by their places. -/
structure Notes where
  marked : List Bool
  noted : List LexerRuleId
  kept : List LexerRuleId → Option (List LexerRule)

namespace Notes

/-- Notes a place and puts up its mark, unless it is up. -/
def note (c : Notes) (id : LexerRuleId) : Except Fault Notes := do
  if ← fetch c.marked id then return c
  else return { c with marked := c.marked.set id true, noted := c.noted ++ [id] }

/-- Starts a list of the places, takes their marks down again and puts them in order,
for which there may be an answer. -/
def collect (g : Grammar) (c : Notes) (ids : List LexerRuleId) : Except Fault (List LexerRule × Notes) := do
  let c ← ids.foldlM note { c with noted := [] }
  let key := c.noted.mergeSort
  let c := { c with marked := Expectations.clear c.marked c.noted, noted := key }
  match c.kept key with
  | some rules => return (rules, c)
  | none =>
    let rules ← key.mapM g.lexerRule
    return (rules, { c with kept := Function.update c.kept key (some rules) })

/-- Just the places in `ids` are noted, once each, and their marks are up. -/
structure Has (n : Nat) (ids : List LexerRuleId) (c : Notes) : Prop where
  length_eq : c.marked.length = n
  marked_iff : ∀ id, c.marked[id]? = some true ↔ id ∈ c.noted
  nodup : c.noted.Nodup
  mem_iff : ∀ id, id ∈ c.noted ↔ id ∈ ids

variable {c : Notes} {n : Nat} {seen ids : List LexerRuleId}

theorem Has.note (h : c.Has n seen) {id : LexerRuleId} (hid : id < n) :
    Succeeds (c.note id) fun c' => c'.kept = c.kept ∧ c'.Has n (seen ++ [id]) := by
  have hlt : id < c.marked.length := h.length_eq ▸ hid
  refine .bind_ok (fetch_eq_ok_iff.2 (List.getElem?_eq_getElem hlt)) ?_
  cases hup : c.marked[id] with
  | true =>
    have hnoted : id ∈ c.noted := (h.marked_iff id).1 (by rw [List.getElem?_eq_getElem hlt, hup])
    refine .pure ⟨rfl, h.length_eq, h.marked_iff, h.nodup, fun i => ?_⟩
    rw [h.mem_iff, List.mem_append, List.mem_singleton, iff_self_or]
    rintro rfl
    exact (h.mem_iff i).1 hnoted
  | false =>
    have hnew : id ∉ c.noted := fun hnoted => by
      simpa [List.getElem?_eq_getElem hlt, hup] using (h.marked_iff id).2 hnoted
    refine .pure ⟨rfl, by simpa using h.length_eq, fun i => ?_, ?_, fun i => by simp [h.mem_iff]⟩
    · rw [List.getElem?_set]
      by_cases hi : id = i
      · subst hi
        simp [hlt]
      · simp [hi, Ne.symm hi, h.marked_iff]
    · rw [← List.concat_eq_append, List.nodup_concat]
      exact ⟨hnew, h.nodup⟩

theorem Has.noteAll (h : c.Has n seen) (hids : ∀ id ∈ ids, id < n) :
    Succeeds (ids.foldlM Notes.note c) fun c' => c'.kept = c.kept ∧ c'.Has n (seen ++ ids) := by
  induction ids generalizing c seen with
  | nil => exact .pure ⟨rfl, by simpa using h⟩
  | cons id ids ih =>
    rw [List.foldlM_cons]
    refine (h.note (hids id (by simp))).bind fun c₁ ⟨hkept₁, h₁⟩ => ?_
    refine (ih h₁ fun i hi => hids i (by simp [hi])).mono fun c₂ ⟨hkept₂, h₂⟩ => ⟨hkept₂.trans hkept₁, ?_⟩
    simpa using h₂

/-- Taking down the marks of what is noted takes down all. -/
theorem Has.clear_eq (h : c.Has n ids) : Expectations.clear c.marked c.noted = List.replicate n false := by
  apply List.ext_getElem?
  intro i
  simp only [Expectations.getElem?_clear, List.getElem?_replicate, ← h.marked_iff, ← h.length_eq]
  by_cases hi : i < c.marked.length
  · cases hb : c.marked[i] <;> simp [hi, hb]
  · simp [hi]

/-- What is noted, put in order. -/
theorem Has.mergeSort_eq {g : Grammar} (h : c.Has g.lexerRules.length ids) (hids : ∀ id ∈ ids, id < g.lexerRules.length) :
    c.noted.mergeSort = g.placesAmong ids := by
  refine ((Grammar.placesAmong_eq_iff hids).2 ⟨?_, fun id => ?_⟩).symm
  · have hsorted := List.pairwise_mergeSort' (· ≤ ·) c.noted
    have hnodup : (c.noted.mergeSort).Nodup := (List.mergeSort_perm _ _).nodup_iff.2 h.nodup
    exact hsorted.imp₂ (fun _ _ hle hne => Nat.lt_of_le_of_ne hle hne) hnodup
  · rw [(List.mergeSort_perm _ _).mem_iff, h.mem_iff]

end Notes

instance : Collector Notes where
  fresh g := ⟨List.replicate g.lexerRules.length false, [], fun _ => none⟩
  marked := Notes.marked
  kept := Notes.kept
  collect := Notes.collect
  marked_fresh _ := rfl
  kept_fresh _ _ := rfl
  collect_spec {g c ids} hmarked hids hkept := by
    have hempty : Notes.Has g.lexerRules.length [] { c with noted := [] } := by
      refine ⟨by simp [hmarked], fun id => ?_, .nil, by simp⟩
      simp only [hmarked, List.getElem?_replicate]
      split <;> simp
    obtain ⟨c', hnote, hkept', hc'⟩ := hempty.noteAll hids
    refine .bind_ok hnote ?_
    simp only [hc'.mergeSort_eq hids, hc'.clear_eq, hkept']
    split
    · rename_i rules hrules
      cases hkept rules hrules
      exact .pure ⟨rfl, hmarked.symm, (Function.update_eq_self_iff.2 hrules.symm).symm⟩
    · exact .bind_ok (g.mapM_placesAmong ids) (.pure ⟨rfl, hmarked.symm, rfl⟩)

/-! ## Transparency -/

/-- After the calls `asked` all marks are down and every answer that is kept is that for
an increasing list of places, which some call has asked for in some order. -/
structure KeptBetween {C : Type} [Collector C] (g : Grammar) (asked : List (List LexerRuleId)) (c : C) : Prop where
  length_marked : (Collector.marked c).length = g.lexerRules.length
  marked_down : ∀ b ∈ Collector.marked c, b = false
  kept_iff : ∀ key rules, Collector.kept c key = some rules ↔ key.Pairwise (· < ·) ∧
    (∃ ids ∈ asked, ∀ id, id ∈ key ↔ id ∈ ids) ∧ key.mapM g.lexerRule = .ok rules

theorem Collector.Keeps.keptBetween {C : Type} [Collector C] {g : Grammar} {asked : List (List LexerRuleId)} {c : C}
    (h : Keeps g asked c) (hasked : ∀ ids ∈ asked, ∀ id ∈ ids, id < g.lexerRules.length) : KeptBetween g asked c where
  length_marked := by rw [h.marked_eq, List.length_replicate]
  marked_down b hb := by
    rw [h.marked_eq] at hb
    exact List.eq_of_mem_replicate hb
  kept_iff key rules := by
    rw [h.kept_iff]
    constructor
    · rintro ⟨ids, hids, rfl, rfl⟩
      obtain ⟨hkey, hmem⟩ := (Grammar.placesAmong_eq_iff (hasked ids hids)).1 rfl
      exact ⟨hkey, ⟨ids, hids, hmem⟩, g.mapM_placesAmong ids⟩
    · rintro ⟨hkey, ⟨ids, hids, hmem⟩, hrules⟩
      obtain rfl := (Grammar.placesAmong_eq_iff (hasked ids hids)).2 ⟨hkey, hmem⟩
      rw [g.mapM_placesAmong] at hrules
      exact ⟨ids, hids, rfl, Except.ok.inj hrules⟩

/-- For every grammar and every sequence of calls with places in it, in any order and with
any repetitions: each call gets the rules at its own places, and the same from both
collectors. After the last call, which may be any, marks and kept answers are as they
should be on both sides, and nothing is kept twice. -/
theorem collection_transparent (g : Grammar) (calls : List (List (Fin g.lexerRules.length))) :
    let places : List (List LexerRuleId) := calls.map (·.map Fin.val)
    ∃ answers e c, Collector.collectAll g (.ofGrammar g : Expectations) places = .ok (answers, e) ∧
      Collector.collectAll g (Collector.fresh g : Notes) places = .ok (answers, c) ∧
      List.Forall₂ g.Collected places answers ∧ KeptBetween g places e ∧ KeptBetween g places c ∧
      (e.answers.map Prod.fst).Nodup := by
  intro places
  have hplaces : ∀ ids ∈ places, ∀ id ∈ ids, id < g.lexerRules.length := by
    intro ids hids id hid
    obtain ⟨call, -, rfl⟩ := List.mem_map.1 hids
    obtain ⟨i, -, rfl⟩ := List.mem_map.1 hid
    exact i.isLt
  obtain ⟨⟨_, e⟩, he, rfl, hkeeps⟩ := (Collector.keeps_fresh (C := Expectations) g).collectAll hplaces
  obtain ⟨⟨_, c⟩, hc, rfl, hkeeps'⟩ := (Collector.keeps_fresh (C := Notes) g).collectAll hplaces
  refine ⟨_, e, c, he, hc, ?_, hkeeps.keptBetween hplaces, hkeeps'.keptBetween hplaces, ?_⟩
  · rw [List.forall₂_map_right_iff]
    exact List.forall₂_same.2 fun ids hids => Grammar.collected_rulesAt (hplaces ids hids)
  · exact Collector.collectAll_keeps Expectations.nodup_collect he .nil

end ChartParser
