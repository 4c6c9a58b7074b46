import Mathlib.Logic.Function.Basic
import ChartParser.Fault
import ChartParser.Proofs.Grammar.Nullable
/-!
# What makes a grammar, and where its parts are found

A list of productions is refused because the start symbol has none of them or, if it has
some, because of the first use of an undefined non-terminal. Every other list makes a
grammar. The places that the grammar gives to productions and lexer rules are those that
one pass through the list gives them, which stops at the first undefined non-terminal and
notes each lexer rule when it is met for the first time (`construction_exact`).
-/
namespace ChartParser

/-! ## What is wrong with a list of productions -/

variable {start lhs A : NonTerminal} {productions : List Production}

/-- Some production has `A` on its left-hand side. -/
def Defined (productions : List Production) (A : NonTerminal) : Prop := ∃ p ∈ productions, p.lhs = A

/-- The first non-terminal without productions, by production and then by symbol, is `A`
in a production of `lhs`. -/
def FirstUndefined (productions : List Production) (lhs A : NonTerminal) : Prop :=
  ∃ earlier p later left right, productions = earlier ++ p :: later ∧ p.lhs = lhs ∧
    p.rhs = left ++ .nonTerminal A :: right ∧ ¬Defined productions A ∧
    (∀ q ∈ earlier, ∀ B, .nonTerminal B ∈ q.rhs → Defined productions B) ∧
    ∀ B, .nonTerminal B ∈ left → Defined productions B

/-- Why the productions make no grammar. -/
inductive Refused (start : NonTerminal) (productions : List Production) : GrammarError → Prop
  | noStart (h : ¬Defined productions start) : Refused start productions (.noStartProductions start)
  | undefined {lhs A : NonTerminal} (hstart : Defined productions start) (h : FirstUndefined productions lhs A) :
    Refused start productions (.undefinedNonTerminal lhs A)

/-- The first non-terminal that is not among the known ones. -/
def Production.unknown? (known : NonTerminal → Bool) (p : Production) : Option (NonTerminal × NonTerminal) :=
  p.rhs.findSome? fun s =>
    match s with
    | .terminal _ => none
    | .nonTerminal A => if known A then none else some (p.lhs, A)

theorem Production.unknown?_eq_none_iff {known : NonTerminal → Bool} {p : Production} :
    p.unknown? known = none ↔ ∀ A, .nonTerminal A ∈ p.rhs → known A = true := by
  rw [unknown?, List.findSome?_eq_none_iff]
  constructor
  · intro h A hA
    simpa using h _ hA
  · intro h s hs
    cases s with
    | terminal r => rfl
    | nonTerminal A => exact if_pos (h A hs)

theorem Production.unknown?_eq_some_iff {known : NonTerminal → Bool} {p : Production} :
    p.unknown? known = some (lhs, A) ↔ p.lhs = lhs ∧ ∃ left right, p.rhs = left ++ .nonTerminal A :: right ∧
      known A = false ∧ ∀ B, .nonTerminal B ∈ left → known B = true := by
  rw [unknown?, List.findSome?_eq_some_iff]
  constructor
  · rintro ⟨left, s, right, hrhs, hs, hleft⟩
    cases s with
    | terminal r => cases hs
    | nonTerminal B =>
      dsimp only at hs
      split at hs
      · cases hs
      · rename_i hB
        cases hs
        refine ⟨rfl, left, right, hrhs, Bool.eq_false_iff.2 hB, fun C hC => ?_⟩
        simpa using hleft _ hC
  · rintro ⟨rfl, left, right, hrhs, hA, hleft⟩
    refine ⟨left, .nonTerminal A, right, hrhs, if_neg (Bool.eq_false_iff.1 hA), fun s hs => ?_⟩
    cases s with
    | terminal r => rfl
    | nonTerminal B => exact if_pos (hleft B hs)

theorem undefinedUse?_eq_some_iff : undefinedUse? productions = some (lhs, A) ↔ FirstUndefined productions lhs A := by
  have huse : undefinedUse? productions = productions.findSome? (·.unknown? (defines productions)) := rfl
  have hundefined : ∀ B, defines productions B = false ↔ ¬Defined productions B := fun B => by
    rw [Defined, ← defines_iff, Bool.not_eq_true]
  rw [huse, List.findSome?_eq_some_iff]
  constructor
  · rintro ⟨earlier, p, later, hsplit, hp, hearlier⟩
    obtain ⟨hlhs, left, right, hrhs, hA, hleft⟩ := Production.unknown?_eq_some_iff.1 hp
    refine ⟨earlier, p, later, left, right, hsplit, hlhs, hrhs, (hundefined A).1 hA, fun q hq B hB => ?_, fun B hB => ?_⟩
    · exact defines_iff.1 (Production.unknown?_eq_none_iff.1 (hearlier q hq) B hB)
    · exact defines_iff.1 (hleft B hB)
  · rintro ⟨earlier, p, later, left, right, hsplit, hlhs, hrhs, hA, hearlier, hleft⟩
    refine ⟨earlier, p, later, hsplit, Production.unknown?_eq_some_iff.2 ⟨hlhs, left, right, hrhs, (hundefined A).2 hA,
      fun B hB => defines_iff.2 (hleft B hB)⟩, fun q hq => ?_⟩
    exact Production.unknown?_eq_none_iff.2 fun B hB => defines_iff.2 (hearlier q hq B hB)

theorem Grammar.ofProductions_eq_error_iff {e : GrammarError} :
    ofProductions start productions = .error e ↔ Refused start productions e := by
  unfold ofProductions
  split
  · rename_i hs
    have hstart : Defined productions start := defines_iff.1 hs
    split
    · rename_i lhs A hu
      constructor
      · intro h
        cases h
        exact .undefined hstart (undefinedUse?_eq_some_iff.1 hu)
      · intro h
        cases h with
        | noStart h => exact absurd hstart h
        | undefined _ h =>
          rw [undefinedUse?_eq_some_iff.2 h] at hu
          cases hu
          rfl
    · rename_i hu
      constructor
      · intro h
        cases h
      · intro h
        cases h with
        | noStart h => exact absurd hstart h
        | undefined _ h =>
          rw [undefinedUse?_eq_some_iff.2 h] at hu
          cases hu
  · rename_i hs
    have hstart : ¬Defined productions start := fun h => hs (defines_iff.2 h)
    constructor
    · intro h
      cases h
      exact .noStart hstart
    · intro h
      cases h with
      | noStart => rfl
      | undefined h => exact absurd h hstart

theorem Grammar.eq_of_ofProductions {g : Grammar} (h : ofProductions start productions = .ok g) :
    g.start = start ∧ g.productions = productions := by
  unfold ofProductions at h
  split at h
  · split at h
    · cases h
    · cases h
      exact ⟨rfl, rfl⟩
  · cases h

/-! ## Going through a list once -/

/-- Lexer rules in order of first use, with an index of their places. -/
structure LexerRuleIndex where
  rules : List LexerRule
  idOf : LexerRule → Option LexerRuleId

namespace LexerRuleIndex

def empty : LexerRuleIndex := ⟨[], fun _ => none⟩

/-- Gives the rule the next place unless it has one. -/
def note (x : LexerRuleIndex) (rule : LexerRule) : LexerRuleIndex :=
  match x.idOf rule with
  | some _ => x
  | none => ⟨x.rules ++ [rule], Function.update x.idOf rule (some x.rules.length)⟩

/-- The rules in `used` have their places, and no others have. -/
structure Notes (used : List LexerRule) (x : LexerRuleIndex) : Prop where
  rules_eq : x.rules = used.eraseDups
  idOf_eq : ∀ rule, x.idOf rule = x.rules.idxOf? rule

variable {x : LexerRuleIndex} {used : List LexerRule}

theorem notes_empty : empty.Notes [] := ⟨rfl, fun _ => rfl⟩

theorem Notes.note (h : x.Notes used) (rule : LexerRule) : (x.note rule).Notes (used ++ [rule]) := by
  have hmem : ∀ r, r ∈ x.rules ↔ r ∈ used := fun r => by rw [h.rules_eq, List.mem_eraseDups]
  unfold LexerRuleIndex.note
  split
  · rename_i id hid
    rw [h.idOf_eq] at hid
    have hused : rule ∈ used := by
      by_contra hnew
      rw [List.idxOf?_eq_none_iff.2 (mt (hmem rule).1 hnew)] at hid
      cases hid
    exact ⟨by rw [h.rules_eq, eraseDups_concat, if_pos hused], h.idOf_eq⟩
  · rename_i hid
    rw [h.idOf_eq, List.idxOf?_eq_none_iff] at hid
    refine ⟨by rw [h.rules_eq, eraseDups_concat, if_neg (mt (hmem rule).2 hid)], fun r => ?_⟩
    dsimp only
    rw [List.idxOf?, List.findIdx?_append]
    by_cases hr : r = rule
    · subst hr
      have hnone : x.rules.findIdx? (· == r) = none := List.idxOf?_eq_none_iff.2 hid
      simp [hnone]
    · rw [Function.update_of_ne hr, h.idOf_eq]
      simp [List.idxOf?, Ne.symm hr]

theorem Notes.noteAll (h : x.Notes used) (rules : List LexerRule) :
    (rules.foldl LexerRuleIndex.note x).Notes (used ++ rules) := by
  induction rules generalizing x used with
  | nil => simpa using h
  | cons rule rules ih => simpa using ih (h.note rule)

/-- Notes a terminal, and checks that a non-terminal is known. -/
def readSymbol (known : NonTerminal → Bool) (lhs : NonTerminal) (x : LexerRuleIndex) :
    Symbol → Except GrammarError LexerRuleIndex
  | .terminal rule => .ok (x.note rule)
  | .nonTerminal A => if known A then .ok x else .error (.undefinedNonTerminal lhs A)

def readProduction (known : NonTerminal → Bool) (x : LexerRuleIndex) (p : Production) :
    Except GrammarError LexerRuleIndex :=
  p.rhs.foldlM (readSymbol known p.lhs) x

variable {known : NonTerminal → Bool}

/-- Reading ends at the first unknown non-terminal, or with all terminals noted. -/
theorem readProduction_eq (x : LexerRuleIndex) (p : Production) : readProduction known x p =
    match p.unknown? known with
    | some (lhs, A) => .error (.undefinedNonTerminal lhs A)
    | none => .ok ((p.rhs.filterMap Symbol.lexerRule?).foldl note x) := by
  obtain ⟨lhs, rhs⟩ := p
  simp only [readProduction, Production.unknown?]
  induction rhs generalizing x with
  | nil => rfl
  | cons s rhs ih =>
    rw [List.foldlM_cons]
    cases s with
    | terminal rule => exact ih (x.note rule)
    | nonTerminal A =>
      rw [List.findSome?_cons]
      cases hA : known A with
      | true =>
        simp only [readSymbol, hA, ↓reduceIte]
        exact ih x
      | false =>
        simp only [readSymbol, hA, Bool.false_eq_true, ↓reduceIte]
        rfl

theorem readProductions_eq (x : LexerRuleIndex) (ps : List Production) : ps.foldlM (readProduction known) x =
    match ps.findSome? (·.unknown? known) with
    | some (lhs, A) => .error (.undefinedNonTerminal lhs A)
    | none => .ok (((ps.flatMap (·.rhs)).filterMap Symbol.lexerRule?).foldl note x) := by
  induction ps generalizing x with
  | nil => rfl
  | cons p ps ih =>
    rw [List.foldlM_cons, readProduction_eq, List.findSome?_cons]
    cases p.unknown? known with
    | some use => rfl
    | none =>
      rw [List.flatMap_cons, List.filterMap_append, List.foldl_append]
      exact ih _

end LexerRuleIndex

/-- Files the place of a production under its left-hand side. -/
def fileProduction (rulesFor : NonTerminal → Option (List ProductionId)) (x : Production × ProductionId) :
    NonTerminal → Option (List ProductionId) :=
  Function.update rulesFor x.1.lhs (some ((rulesFor x.1.lhs).getD [] ++ [x.2]))

theorem getD_fileProductions (rulesFor : NonTerminal → Option (List ProductionId)) (xs : List (Production × ProductionId))
    (A : NonTerminal) : (xs.foldl fileProduction rulesFor A).getD [] =
      (rulesFor A).getD [] ++ xs.filterMap fun (p, i) => if p.lhs = A then some i else none := by
  induction xs generalizing rulesFor with
  | nil => simp
  | cons x xs ih =>
    obtain ⟨p, i⟩ := x
    rw [List.foldl_cons, ih]
    by_cases hA : p.lhs = A
    · subst hA
      simp [fileProduction]
    · simp [fileProduction, Function.update_of_ne (Ne.symm hA), hA]

theorem isSome_fileProductions (rulesFor : NonTerminal → Option (List ProductionId))
    (xs : List (Production × ProductionId)) (A : NonTerminal) :
    (xs.foldl fileProduction rulesFor A).isSome = ((rulesFor A).isSome || xs.any (·.1.lhs = A)) := by
  induction xs generalizing rulesFor with
  | nil => simp
  | cons x xs ih =>
    obtain ⟨p, i⟩ := x
    rw [List.foldl_cons, ih]
    by_cases hA : p.lhs = A
    · subst hA
      simp [fileProduction]
    · simp [fileProduction, Function.update_of_ne (Ne.symm hA), hA]

/-- Where the parts of a grammar are found. -/
structure GrammarIndex where
  /-- The places of the productions of a non-terminal, if it has any. -/
  rulesFor : NonTerminal → Option (List ProductionId)
  lexerRules : LexerRuleIndex
  nullable : List NonTerminal

namespace GrammarIndex

/-- Files the productions, and then goes through them symbol by symbol. -/
def ofProductions (start : NonTerminal) (productions : List Production) : Except GrammarError GrammarIndex :=
  let rulesFor := productions.zipIdx.foldl fileProduction fun _ => none
  if (rulesFor start).isSome then do
    let lexerRules ← productions.foldlM (LexerRuleIndex.readProduction fun A => (rulesFor A).isSome) .empty
    return ⟨rulesFor, lexerRules, nullablesByPasses productions []⟩
  else .error (.noStartProductions start)

/-- The lexer rules in the productions, in order and as often as they occur. -/
def occurrences (productions : List Production) : List LexerRule :=
  (productions.flatMap (·.rhs)).filterMap Symbol.lexerRule?

/-- What is found if nothing is wrong. -/
def ofSound (productions : List Production) : GrammarIndex where
  rulesFor := productions.zipIdx.foldl fileProduction fun _ => none
  lexerRules := (occurrences productions).foldl LexerRuleIndex.note .empty
  nullable := nullablesByPasses productions []

theorem isSome_rulesFor_ofSound (productions : List Production) (A : NonTerminal) :
    ((ofSound productions).rulesFor A).isSome = defines productions A := by
  rw [ofSound, isSome_fileProductions, Option.isSome_none, Bool.false_or, defines]
  conv_rhs => rw [← List.zipIdx_map_fst 0 productions, List.any_map]
  rfl

/-- The pass succeeds when there is a grammar, and else fails in the same way. -/
theorem ofProductions_eq (start : NonTerminal) (productions : List Production) :
    ofProductions start productions = (Grammar.ofProductions start productions).map fun _ => ofSound productions := by
  have hknown : (fun A => ((ofSound productions).rulesFor A).isSome) = defines productions :=
    funext (isSome_rulesFor_ofSound productions)
  have hread := @LexerRuleIndex.readProductions_eq (defines productions) .empty productions
  have huse : productions.findSome? (·.unknown? (defines productions)) = undefinedUse? productions := rfl
  rw [huse, ← hknown] at hread
  have hstart := isSome_rulesFor_ofSound productions start
  unfold Grammar.ofProductions ofProductions
  dsimp only [ofSound] at hread hstart ⊢
  simp only [hread, hstart]
  split
  · -- Both sides look for the first undefined use.
    split
    · rename_i hu
      split
      · rename_i hu'
        cases hu.symm.trans hu'
        rfl
      · rename_i hu'
        cases hu.symm.trans hu'
    · rename_i hu
      split
      · rename_i hu'
        cases hu.symm.trans hu'
      · rfl
  · rfl

end GrammarIndex

/-! ## Where the parts are found -/

namespace Grammar

variable {g : Grammar} {A : NonTerminal}

theorem mem_nonTerminals : A ∈ g.nonTerminals ↔ Defined g.productions A := by
  simp [nonTerminals, Defined]

theorem nodup_nonTerminals (g : Grammar) : g.nonTerminals.Nodup :=
  (List.mergeSort_perm _ _).nodup_iff.2 (nodup_eraseDups _)

theorem pairwise_productionIds (g : Grammar) (A : NonTerminal) : (g.productionIds A).Pairwise (· < ·) := by
  have hzip : g.productions.zipIdx.Pairwise fun x y => x.2 < y.2 := by
    rw [← List.pairwise_map, List.zipIdx_map_snd]
    exact List.pairwise_lt_range'
  refine hzip.filterMap _ fun x y hxy i hi j hj => ?_
  obtain ⟨p, n⟩ := x
  obtain ⟨q, m⟩ := y
  dsimp only at hi hj hxy
  split at hi
  · split at hj
    · cases hi
      cases hj
      exact hxy
    · cases hj
  · cases hi

theorem lt_of_mem_productionIds {i : ProductionId} (hi : i ∈ g.productionIds A) : i < g.productions.length := by
  obtain ⟨p, hp, -⟩ := mem_productionIds.1 hi
  exact (List.getElem?_eq_some_iff.1 hp).1

/-- A production is among those of its left-hand side only. -/
theorem existsUnique_productionIds {i : ProductionId} :
    i < g.productions.length ↔ ∃! A, i ∈ g.productionIds A := by
  constructor
  · intro hi
    refine ⟨g.productions[i].lhs, mem_productionIds.2 ⟨_, List.getElem?_eq_getElem hi, rfl⟩, fun A hA => ?_⟩
    obtain ⟨p, hp, rfl⟩ := mem_productionIds.1 hA
    rw [List.getElem?_eq_getElem hi, Option.some.injEq] at hp
    rw [hp]
  · rintro ⟨A, hA, -⟩
    exact lt_of_mem_productionIds hA

/-- Each production is found once. -/
theorem productionIds_perm (g : Grammar) :
    (g.nonTerminals.flatMap g.productionIds).Perm (List.range g.productions.length) := by
  have hnodup : (g.nonTerminals.flatMap g.productionIds).Nodup := by
    refine List.nodup_flatMap.2 ⟨fun A _ => (pairwise_productionIds g A).imp Nat.ne_of_lt, ?_⟩
    refine (nodup_nonTerminals g).imp fun {A B} hAB i hA hB => hAB ?_
    exact (existsUnique_productionIds.1 (lt_of_mem_productionIds hA)).unique hA hB
  refine (List.perm_ext_iff_of_nodup hnodup List.nodup_range).2 fun i => ?_
  rw [List.mem_flatMap, List.mem_range]
  constructor
  · rintro ⟨A, -, hA⟩
    exact lt_of_mem_productionIds hA
  · intro hi
    refine ⟨g.productions[i].lhs, ?_, mem_productionIds.2 ⟨_, List.getElem?_eq_getElem hi, rfl⟩⟩
    exact mem_nonTerminals.2 ⟨_, List.getElem_mem hi, rfl⟩

theorem nodup_lexerRules (g : Grammar) : g.lexerRules.Nodup := g.lexerRules_eq ▸ nodup_eraseDups _

/-- The place of a lexer rule is where it stands. -/
theorem lexerRuleId?_eq_some_iff {l : LexerRule} {id : LexerRuleId} :
    g.lexerRuleId? l = some id ↔ g.lexerRules[id]? = some l := by
  rw [lexerRuleId?, List.idxOf?_eq_some_iff, List.getElem?_eq_some_iff]
  constructor
  · rintro ⟨hid, hl, -⟩
    exact ⟨hid, hl⟩
  · rintro ⟨hid, hl⟩
    refine ⟨hid, hl, fun j hj hjl => ?_⟩
    exact List.pairwise_iff_getElem.1 g.nodup_lexerRules j id (by omega) hid hj (hjl.trans hl.symm)

theorem lexerRuleId?_eq_none_iff {l : LexerRule} :
    g.lexerRuleId? l = none ↔ ∀ p ∈ g.productions, .terminal l ∉ p.rhs := by
  rw [lexerRuleId?, List.idxOf?_eq_none_iff, mem_lexerRules]
  push Not
  rfl

end Grammar

/-! ## Exactness -/

namespace GrammarIndex

/-- What the index and the grammar hold, which is the same: for each non-terminal the
places of its productions, in increasing order, so that every production is found once;
all lexer rules that occur, each once, in the order of first occurrence, with their
places and no other rule with a place; and what is nullable. -/
structure Indexes (g : Grammar) (index : GrammarIndex) : Prop where
  rulesFor_eq : ∀ A, (index.rulesFor A).getD [] = g.productionIds A
  pairwise_productionIds : ∀ A, (g.productionIds A).Pairwise (· < ·)
  mem_productionIds : ∀ A i, i ∈ g.productionIds A ↔ ∃ p, g.production i = .ok p ∧ p.lhs = A
  existsUnique_productionIds : ∀ i, i < g.productions.length ↔ ∃! A, i ∈ g.productionIds A
  productionIds_perm : (g.nonTerminals.flatMap g.productionIds).Perm (List.range g.productions.length)
  rules_eq : index.lexerRules.rules = g.lexerRules
  nodup_lexerRules : g.lexerRules.Nodup
  mem_lexerRules : ∀ r, r ∈ g.lexerRules ↔ ∃ p ∈ g.productions, .terminal r ∈ p.rhs
  lexerRules_ordered : g.lexerRules.Pairwise fun r r' =>
    (occurrences g.productions).idxOf r < (occurrences g.productions).idxOf r'
  idOf_eq : ∀ r, index.lexerRules.idOf r = g.lexerRuleId? r
  lexerRuleId?_eq_some_iff : ∀ r id, g.lexerRuleId? r = some id ↔ g.lexerRule id = .ok r
  lexerRuleId?_eq_none_iff : ∀ r, g.lexerRuleId? r = none ↔ ∀ p ∈ g.productions, .terminal r ∉ p.rhs
  exists_lexerRule_iff : ∀ id, (∃ r, g.lexerRule id = .ok r) ↔ id < g.lexerRules.length
  nullable_iff : ∀ A, A ∈ index.nullable ↔ g.isNullable A = true

theorem indexes_ofSound (g : Grammar) : (ofSound g.productions).Indexes g := by
  have hnotes := LexerRuleIndex.notes_empty.noteAll (occurrences g.productions)
  have hrules : (ofSound g.productions).lexerRules.rules = g.lexerRules := by
    rw [g.lexerRules_eq]
    exact hnotes.rules_eq
  refine {
    rulesFor_eq A := getD_fileProductions _ _ A
    pairwise_productionIds := g.pairwise_productionIds
    mem_productionIds A i := by simp only [Grammar.mem_productionIds, Grammar.production, fetch_eq_ok_iff]
    existsUnique_productionIds i := Grammar.existsUnique_productionIds
    productionIds_perm := g.productionIds_perm
    rules_eq := hrules
    nodup_lexerRules := g.nodup_lexerRules
    mem_lexerRules r := Grammar.mem_lexerRules
    lexerRules_ordered := ?_
    idOf_eq r := ?_
    lexerRuleId?_eq_some_iff r id := by rw [Grammar.lexerRuleId?_eq_some_iff, Grammar.lexerRule, fetch_eq_ok_iff]
    lexerRuleId?_eq_none_iff r := Grammar.lexerRuleId?_eq_none_iff
    exists_lexerRule_iff id := ?_
    nullable_iff A := ?_ }
  · rw [g.lexerRules_eq]
    exact pairwise_idxOf_eraseDups _
  · rw [Grammar.lexerRuleId?, ← hrules]
    exact hnotes.idOf_eq r
  · simp only [Grammar.lexerRule, fetch_eq_ok_iff, List.getElem?_eq_some_iff]
    exact ⟨fun ⟨_, hid, _⟩ => hid, fun hid => ⟨_, hid, rfl⟩⟩
  · rw [Grammar.isNullable_iff, mem_nullables_iff]
    exact mem_iff_of_saturated (nullablesByPasses_adds _ []) (nullablesByPasses_saturated _ [])

end GrammarIndex

/-- For every start symbol and every list of productions: they are refused, for the reason
given, exactly if the start symbol has no productions or else some non-terminal that is
used has none, and then the first such use is told. If nothing is wrong there is a grammar
with just this start symbol and these productions. Going through the list once fails in
the same cases and in the same way, and finds the same parts in the same places. -/
theorem construction_exact (start : NonTerminal) (productions : List Production) :
    (∀ e, Grammar.ofProductions start productions = .error e ↔ Refused start productions e) ∧
    (∀ e, GrammarIndex.ofProductions start productions = .error e ↔ Refused start productions e) ∧
    ((∃ g, Grammar.ofProductions start productions = .ok g) ↔ ∀ e, ¬Refused start productions e) ∧
    ∀ g, Grammar.ofProductions start productions = .ok g → g.start = start ∧ g.productions = productions ∧
      ∃ index, GrammarIndex.ofProductions start productions = .ok index ∧ index.Indexes g := by
  have hrefused : ∀ e, Grammar.ofProductions start productions = .error e ↔ Refused start productions e :=
    fun _ => Grammar.ofProductions_eq_error_iff
  have hpass := GrammarIndex.ofProductions_eq start productions
  refine ⟨hrefused, fun e => ?_, ?_, fun g hg => ?_⟩
  · rw [← hrefused, hpass]
    cases Grammar.ofProductions start productions with
    | error e' => simp [Except.map]
    | ok g => simp [Except.map]
  · simp only [← hrefused]
    cases Grammar.ofProductions start productions with
    | error e' => simp
    | ok g => simp
  · obtain ⟨hstart, hproductions⟩ := Grammar.eq_of_ofProductions hg
    refine ⟨hstart, hproductions, _, by rw [hpass, hg]; rfl, ?_⟩
    rw [← hproductions]
    exact GrammarIndex.indexes_ofSound g

end ChartParser
