import ChartParser.Proofs.Chart.Bound
import ChartParser.Proofs.Parser.Journal
/-!
# Where the dot is shown

Symbols are shown as they are. The terminal for every character looks like a dot, and so
does a non-terminal that is named after one. The text of a rule tells where its dot is,
then, up to symbols that look like dots: two positions of a production are shown alike if
and only if nothing else stands between them, and so are two states that differ in nothing
but this (`dot_shown_up_to_dots`).
-/
namespace ChartParser

/-! ## Dots -/

/-- Dots, each after a blank. -/
inductive Dots : List Char → Prop
  | nil : Dots []
  | cons {x : List Char} (h : Dots x) : Dots (' ' :: '.' :: x)

namespace Dots

variable {x y : List Char}

theorem append (hx : Dots x) (hy : Dots y) : Dots (x ++ y) := by
  induction hx with
  | nil => exact hy
  | cons _ ih => exact ih.cons

/-- Dots can be taken apart before anything but a dot. -/
theorem of_append (h : Dots (x ++ y)) (hy : y.head? ≠ some '.') : Dots x ∧ Dots y := by
  generalize hz : x ++ y = z at h
  induction h generalizing x with
  | nil =>
    obtain ⟨rfl, rfl⟩ := List.append_eq_nil_iff.1 hz
    exact ⟨.nil, .nil⟩
  | cons h ih =>
    match x, hz with
    | [], hz =>
      rw [List.nil_append] at hz
      exact ⟨.nil, hz ▸ h.cons⟩
    | [_], hz =>
      cases hz
      exact absurd rfl hy
    | _ :: _ :: _, hz =>
      cases hz
      obtain ⟨hx, hy⟩ := ih rfl
      exact ⟨hx.cons, hy⟩

/-- As a name, dots have blanks between them. -/
theorem cons_iff : Dots (' ' :: x) ↔ ∃ n, x = [' '].intercalate (List.replicate (n + 1) ['.']) := by
  have hsucc : ∀ n : Nat, [' '].intercalate (List.replicate (n + 2) ['.']) =
      '.' :: ' ' :: [' '].intercalate (List.replicate (n + 1) ['.']) := fun n => by simp [List.replicate_succ]
  constructor
  · generalize hz : ' ' :: x = z
    intro h
    induction h generalizing x with
    | nil => cases hz
    | @cons y h ih =>
      cases hz
      cases h with
      | nil => exact ⟨0, rfl⟩
      | cons h =>
        obtain ⟨n, hn⟩ := ih rfl
        exact ⟨n + 1, by rw [hn, hsucc]⟩
  · rintro ⟨n, rfl⟩
    induction n with
    | zero => exact .cons .nil
    | succ n ih =>
      rw [hsucc]
      exact ih.cons

end Dots

/-- A dot may stand before or after a text if and only if the text is nothing but dots. -/
theorem dot_append_eq_iff : {x : List Char} → ([' ', '.'] ++ x = x ++ [' ', '.'] ↔ Dots x)
  | [] => iff_of_true rfl .nil
  | [c] => by
    refine iff_of_false (fun h => ?_) nofun
    simp only [List.cons_append, List.nil_append, List.cons.injEq] at h
    exact absurd h.2.1 (by decide)
  | c :: d :: x => by
    have ih := dot_append_eq_iff (x := x)
    constructor
    · intro h
      simp only [List.cons_append, List.nil_append, List.cons.injEq] at h ih
      obtain ⟨rfl, rfl, h⟩ := h
      exact (ih.1 h).cons
    · rintro (_ | h)
      exact congrArg (fun y => ' ' :: '.' :: y) (ih.2 h)

/-! ## Symbols that look like dots -/

namespace Symbol

/-- The symbol as it stands in a text, after a blank. -/
def word (s : Symbol) : List Char := ' ' :: s.render.toList

theorem toList_renderAll (symbols : List Symbol) : (renderAll symbols).toList = symbols.flatMap word := by
  rw [renderAll, String.toList_join, List.flatMap_map]
  refine List.flatMap_congr fun s _ => ?_
  rw [String.toList_append]
  rfl

/-- The terminal for every character, or a non-terminal whose name is made of dots, with
blanks between them. -/
def LooksLikeDots : Symbol → Prop
  | .terminal rule => rule.matcher = .any
  | .nonTerminal A => ∃ n, A.name = " ".intercalate (List.replicate (n + 1) ".")

theorem dots_word_iff {s : Symbol} : Dots s.word ↔ s.LooksLikeDots := by
  cases s with
  | terminal rule =>
    have hword : word (.terminal rule) = ' ' :: rule.matcher.render.toList := rfl
    rw [hword, LooksLikeDots]
    cases rule.matcher with
    | any => exact iff_of_true (.cons .nil) rfl
    | char c =>
      rw [Matcher.render, Text.quotedChar, Text.quoted, String.toList_ofList]
      exact iff_of_false nofun nofun
    | range lo hi =>
      rw [Matcher.render, String.toList_ofList]
      exact iff_of_false nofun nofun
    | oneOf cs =>
      rw [Matcher.render, String.toList_ofList]
      exact iff_of_false nofun nofun
  | nonTerminal A =>
    refine Dots.cons_iff.trans (exists_congr fun n => ?_)
    rw [← String.toList_inj, String.toList_intercalate, List.map_replicate]
    rfl

/-- Every word begins with a blank, so words look like dots together if each of them does. -/
theorem dots_flatMap_word_iff {symbols : List Symbol} :
    Dots (symbols.flatMap word) ↔ ∀ s ∈ symbols, s.LooksLikeDots := by
  induction symbols with
  | nil => exact iff_of_true .nil (by simp)
  | cons s symbols ih =>
    rw [List.flatMap_cons, List.forall_mem_cons, ← ih, ← dots_word_iff]
    refine ⟨fun h => h.of_append ?_, fun ⟨hs, hrest⟩ => hs.append hrest⟩
    cases symbols with
    | nil => simp
    | cons t rest => simp [word]

end Symbol

/-! ## Rules and items -/

/-- The symbols from position `i` to position `j`. -/
def Production.between (p : Production) (i j : Nat) : List Symbol := (p.rhs.take j).drop i

namespace DottedRule

variable {r r' : DottedRule}

theorem toList_render (r : DottedRule) : r.render.toList =
    (r.lhs.name ++ " ->").toList ++ r.before.flatMap Symbol.word ++ [' ', '.'] ++ r.after.flatMap Symbol.word := by
  simp only [render, String.toList_append, Symbol.toList_renderAll]
  rfl

/-- Wherever it stands, the dot takes up two characters. -/
theorem length_render (r : DottedRule) :
    r.render.length = (Production.mk r.lhs (r.before ++ r.after)).render.length + 2 := by
  simp only [← String.length_toList, toList_render, Production.render, String.toList_append, Symbol.toList_renderAll,
    List.flatMap_append, List.length_append, List.length_cons, List.length_nil]
  omega

/-- Over the symbols `mid`, the dot is seen to move unless they look like dots. -/
theorem render_eq_iff {mid : List Symbol} (hlhs : r.lhs = r'.lhs) (hbefore : r'.before = r.before ++ mid)
    (hafter : r.after = mid ++ r'.after) : r.render = r'.render ↔ ∀ s ∈ mid, s.LooksLikeDots := by
  rw [← Symbol.dots_flatMap_word_iff, ← dot_append_eq_iff, ← String.toList_inj, toList_render, toList_render, hlhs,
    hbefore, hafter]
  simp only [List.flatMap_append, List.append_assoc, List.append_cancel_left_eq]
  simp only [← List.append_assoc, List.append_cancel_right_eq]

end DottedRule

namespace Grammar.HasRule

variable {g : Grammar} {r r' : DottedRule} {p : Production}

theorem take_drop (h : g.HasRule r) (hp : g.production r.production = .ok p) :
    r.lhs = p.lhs ∧ r.before = p.rhs.take r.position ∧ r.after = p.rhs.drop r.position := by
  cases h.symm.trans (fetch_eq_ok_iff.1 hp)
  exact ⟨rfl, (List.take_left ..).symm, (List.drop_left ..).symm⟩

theorem render_eq_iff (h : g.HasRule r) (h' : g.HasRule r') (hp : g.production r.production = .ok p)
    (hproduction : r.production = r'.production) (hle : r.position ≤ r'.position) :
    r.render = r'.render ↔ ∀ s ∈ p.between r.position r'.position, s.LooksLikeDots := by
  obtain ⟨hlhs, hbefore, hafter⟩ := h.take_drop hp
  obtain ⟨hlhs', hbefore', hafter'⟩ := h'.take_drop (hproduction ▸ hp)
  refine DottedRule.render_eq_iff (hlhs.trans hlhs'.symm) ?_ ?_
  · have htake : p.rhs.take r.position = (p.rhs.take r'.position).take r.position := by
      rw [List.take_take, Nat.min_eq_left hle]
    rw [hbefore', hbefore, htake, Production.between, List.take_append_drop]
  · have hdrop : p.rhs.drop r'.position = (p.rhs.drop r.position).drop (r'.position - r.position) := by
      rw [List.drop_drop, Nat.add_sub_cancel' hle]
    rw [hafter, hafter', hdrop, Production.between, List.drop_take, List.take_append_drop]

theorem length_render_eq (h : g.HasRule r) (h' : g.HasRule r') (hproduction : r.production = r'.production) :
    r.render.length = r'.render.length := by
  rw [HasRule, hproduction] at h
  rw [DottedRule.length_render, DottedRule.length_render, Option.some.inj (h.symm.trans h')]

end Grammar.HasRule

theorem append_inj_of_length {s s' t t' : String} (hlen : t.length = t'.length) :
    s ++ t = s' ++ t' ↔ s = s' ∧ t = t' := by
  rw [← String.toList_inj, String.toList_append, String.toList_append]
  constructor
  · intro h
    obtain ⟨hs, ht⟩ := List.append_inj' h (by rwa [String.length_toList, String.length_toList])
    exact ⟨String.toList_inj.1 hs, String.toList_inj.1 ht⟩
  · rintro ⟨rfl, rfl⟩
    rfl

/-- Of items with the same origin and rules that take up the same room, the kind and the
rule are shown. -/
theorem Item.render_eq_iff {x y : Item} (horigin : x.origin = y.origin)
    (hlen : x.rule.render.length = y.rule.render.length) :
    x.render = y.render ↔ x.kind = y.kind ∧ x.rule.render = y.rule.render := by
  obtain ⟨r, i, kind⟩ := x
  obtain ⟨r', j, kind'⟩ := y
  cases horigin
  have hbody : "(" ++ r.render ++ ", " ++ toString i ++ ")" = "(" ++ r'.render ++ ", " ++ toString i ++ ")" ↔
      r.render = r'.render := by
    simp
  have hbodies : ("(" ++ r.render ++ ", " ++ toString i ++ ")").length =
      ("(" ++ r'.render ++ ", " ++ toString i ++ ")").length := by
    simp only [String.length_append, hlen]
  -- The name in front of the body of a transitive item makes its text longer.
  have hname : ∀ (A : NonTerminal) (body : String), (A.name ++ " : " ++ body).length ≠ body.length := fun A body => by
    have hsep : " : ".length = 3 := rfl
    simp only [String.length_append, hsep]
    omega
  cases kind with
  | normal =>
    cases kind' with
    | normal => simp only [render, hbody, true_and]
    | transitive B => exact iff_of_false (fun h => hname B _ ((congrArg String.length h).symm.trans hbodies)) nofun
  | transitive A =>
    cases kind' with
    | normal => exact iff_of_false (fun h => hname A _ ((congrArg String.length h).trans hbodies.symm)) nofun
    | transitive B =>
      obtain ⟨a⟩ := A
      obtain ⟨b⟩ := B
      simp only [render, append_inj_of_length hbodies, hbody, String.append_left_inj, ItemKind.transitive.injEq,
        NonTerminal.mk.injEq]

/-! ## What is shown -/

/-- The text of the rule at a place. -/
def RuleTable.display (t : RuleTable) (id : RuleId) : Except Fault String := do
  return (← t.rule id).render

/-- The item is shown with the chart or, from the time when the parse was last started,
with the journal. -/
def Parse.Displays {σ : Type} (run : Parse σ) (x : Item) : Prop :=
  (∃ k set, run.chart.get k = .ok set ∧ ∃ s ∈ set.states, s.toItem = x) ∨ ∃ k, (k, x) ∈ Journal.insertions run.journal

theorem Parser.Tracks.hasRule_of_displays {σ : Type} {p : Parser σ} {input : List (List Token)} {run : Parse σ}
    (h : Tracks p input run) (ht : run.Told) {x : Item} (hx : run.Displays x) : p.grammar.HasRule x.rule := by
  obtain ⟨k, set, hset, s, hs, rfl⟩ | ⟨k, hx⟩ := hx
  · obtain ⟨l, hl⟩ := (Chart.mem_states_iff hset).1 hs
    exact h.sound.ranged.hasRule hl
  · obtain ⟨l, s, hl, rfl⟩ := ht.exists_mem_lane hx
    exact h.sound.ranged.hasRule hl

theorem RuleTable.display_of_getElem? {t : RuleTable} {id : RuleId} {r : DottedRule} (h : t.rules[id]? = some r) :
    t.display id = .ok r.render := by
  rw [display, rule, fetch_eq_ok_iff.2 h]
  rfl

/-- For every grammar and every table of rules, a production is entered with its dot at
any two positions, and the texts of the two rules are the same if and only if all that
stands between these positions looks like dots. After every session with a chart parser,
two items of one production with the same origin, from the chart or the journal, have the
same text if and only if they are of the same kind and all between their dots looks like
dots. -/
theorem dot_shown_up_to_dots (g : Grammar) :
    (∀ (t : RuleTable) (production : ProductionId) (p : Production) (i j : Nat), g.production production = .ok p →
      i ≤ j → j ≤ p.rhs.length → ∃ id t₁ id' t₂ text text',
        t.get g production i = .ok (id, t₁) ∧ t₁.get g production j = .ok (id', t₂) ∧
        t₂.display id = .ok text ∧ t₂.display id' = .ok text' ∧
        (text = text' ↔ ∀ s ∈ p.between i j, s.LooksLikeDots)) ∧
    ∀ (σ : Type) (leo : Bool) (builder : ForestBuilder σ) (forest : σ) (calls : List Call), ∃ answers run,
      (do Recognizer.performAll (⟨g, leo, builder⟩ : Parser σ) (← Parser.start ⟨g, leo, builder⟩ forest) calls) =
        .ok (answers, run) ∧
      ∀ x y, run.Displays x → run.Displays y → x.rule.production = y.rule.production → x.origin = y.origin →
        x.rule.position ≤ y.rule.position → ∃ p, g.production x.rule.production = .ok p ∧
          (x.render = y.render ↔
            x.kind = y.kind ∧ ∀ s ∈ p.between x.rule.position y.rule.position, s.LooksLikeDots) := by
  constructor
  · intro t production p i j hp hij hj
    obtain ⟨r, hr⟩ := Grammar.exists_dottedRule_iff.2 ⟨p, hp, Nat.le_trans hij hj⟩
    obtain ⟨r', hr'⟩ := Grammar.exists_dottedRule_iff.2 ⟨p, hp, hj⟩
    obtain ⟨hrule, rfl, rfl⟩ := Grammar.HasRule.of_dottedRule hr
    obtain ⟨hrule', hproduction, rfl⟩ := Grammar.HasRule.of_dottedRule hr'
    have hkept := (RuleTable.Extends.intern (t.intern r) r').getElem? (t.getElem?_idOf_intern r)
    refine ⟨_, _, _, _, _, _, RuleTable.get_eq_of_ok hr, RuleTable.get_eq_of_ok hr',
      RuleTable.display_of_getElem? hkept, RuleTable.display_of_getElem? (RuleTable.getElem?_idOf_intern _ _), ?_⟩
    exact hrule.render_eq_iff hrule' hp hproduction.symm hij
  · intro σ leo builder forest calls
    obtain ⟨⟨answers, run⟩, hrun, _, h⟩ := Parser.session_spec ⟨g, leo, builder⟩ forest calls
    have ht : run.Told := Parser.session_told hrun
    refine ⟨answers, run, hrun, fun x y hx hy hproduction horigin hle => ?_⟩
    have hrule := h.hasRule_of_displays ht hx
    have hrule' := h.hasRule_of_displays ht hy
    have hp : g.production x.rule.production = .ok ⟨x.rule.lhs, x.rule.before ++ x.rule.after⟩ :=
      fetch_eq_ok_iff.2 hrule
    refine ⟨_, hp, ?_⟩
    rw [Item.render_eq_iff horigin (hrule.length_render_eq hrule' hproduction),
      hrule.render_eq_iff hrule' hp hproduction hle]

/-- Any one character. -/
def oneOfAny : Grammar where
  start := ⟨"S"⟩
  productions := [⟨⟨"S"⟩, [.terminal .any]⟩]
  ignored := []
  nullable := []
  lexerRules := [.any]
  start_defined := by decide
  rhs_defined := fun _ hp _ hA => defines_of_undefinedUse?_eq_none (by decide) hp hA
  nullable_eq := by decide +kernel
  lexerRules_eq := by decide +kernel

/-- A dot before the terminal for every character and a dot after it look the same, and so
do the states before and after a token is read. -/
theorem dot_hidden_by_any :
    (do
      let (id, t) ← RuleTable.empty.get oneOfAny 0 0
      let (id', t) ← t.get oneOfAny 0 1
      return (id, id', ← t.display id, ← t.display id')) = .ok (0, 1, "S -> . .", "S -> . .") ∧
    ∃ answers run, (do
        Recognizer.performAll (⟨oneOfAny, true, .none⟩ : Parser Unit) (← Parser.start ⟨oneOfAny, true, .none⟩ ())
          [.offer [⟨"x", 0, ⟨"."⟩⟩]]) = .ok (answers, run) ∧
      run.chart.render = "== 0 ==\n(S -> . ., 0)\n== 1 ==\n(S -> . ., 0)\n" :=
  ⟨rfl, _, _, by with_unfolding_all rfl, by with_unfolding_all rfl⟩

end ChartParser
