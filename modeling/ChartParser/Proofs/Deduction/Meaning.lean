import ChartParser.Proofs.Deduction.Basic
import ChartParser.Proofs.Grammar.Yield
import Mathlib.Data.List.Forall2
/-!
# What deducible items mean

An item is deducible exactly when the input can be read so that its left-hand
side is awaited at its origin and what stands before its dot derives the rest
(`deducible_iff_fits`, `fits_iff`). The input is complete exactly when it can be
read as a sentence (`completes_iff`), and a token is expected exactly when the
start symbol derives a word that goes on with it (`expects_iff`).
-/
namespace ChartParser

variable {g : Grammar} {input : List (List Token)}

/-! ## Reading an input -/

/-- The word can be read off the input from location `i` to location `j`, one of
the types offered at each location. -/
def Reads (input : List (List Token)) (i : Nat) : List TokenType → Nat → Prop
  | [], j => i = j
  | t :: w, j => Offers input i t ∧ Reads input (i + 1) w j

theorem reads_append {u v : List TokenType} {i j : Nat} :
    Reads input i (u ++ v) j ↔ ∃ k, Reads input i u k ∧ Reads input k v j := by
  induction u generalizing i with
  | nil => simp [Reads]
  | cons t u ih =>
    simp only [List.cons_append, Reads, ih]
    constructor
    · rintro ⟨ht, k, hu, hv⟩
      exact ⟨k, ⟨ht, hu⟩, hv⟩
    · rintro ⟨k, ⟨ht, hu⟩, hv⟩
      exact ⟨ht, k, hu, hv⟩

theorem Reads.length_eq {w : List TokenType} {i j : Nat} (h : Reads input i w j) : j = i + w.length := by
  induction w generalizing i with
  | nil => simpa [Reads] using h.symm
  | cons t w ih =>
    have := ih h.2
    simp only [List.length_cons]
    omega

/-- Each type of the word is that of a token at its place. -/
def Matches (w : List TokenType) (input : List (List Token)) : Prop :=
  List.Forall₂ (fun t tokens => ∃ token ∈ tokens, token.tokenType = t) w input

theorem reads_iff {w : List TokenType} {i j : Nat} (hj : j ≤ input.length) :
    Reads input i w j ↔ i ≤ j ∧ Matches w ((input.take j).drop i) := by
  induction w generalizing i with
  | nil =>
    simp only [Reads, Matches, List.forall₂_nil_left_iff, List.drop_eq_nil_iff, List.length_take]
    omega
  | cons t w ih =>
    simp only [Reads, ih, Matches]
    by_cases hij : i < j
    · have hi : i < (input.take j).length := by simp; omega
      rw [List.drop_eq_getElem_cons hi, List.forall₂_cons]
      simp only [Offers, List.getElem_take, List.getElem?_eq_getElem (show i < input.length by omega),
        Option.some.injEq, exists_eq_left']
      constructor
      · rintro ⟨ht, -, hw⟩
        exact ⟨by omega, ht, hw⟩
      · rintro ⟨-, ht, hw⟩
        exact ⟨ht, by omega, hw⟩
    · constructor
      · rintro ⟨-, h, -⟩
        omega
      · rintro ⟨-, h⟩
        rw [List.drop_eq_nil_of_le (by simp; omega)] at h
        simp at h

/-- Tokens that are offered one at a time can be read in one way. -/
theorem reads_singletons {tokens : List Token} {w : List TokenType} :
    Reads (tokens.map ([·])) 0 w (tokens.map ([·])).length ↔ w = tokens.map (·.tokenType) := by
  rw [reads_iff (Nat.le_refl _), List.take_length, List.drop_zero, Matches, List.forall₂_map_right_iff]
  simp only [List.mem_singleton, exists_eq_left, Nat.zero_le, true_and]
  have h := List.forall₂_map_right_iff (R := Eq) (f := (·.tokenType)) (l := w) (u := tokens)
  rw [List.forall₂_eq_eq_eq] at h
  simp only [h, eq_comm]

/-! ## Soundness -/

/-- The symbols before the dot, as derivations know them. -/
def DottedRule.read (r : DottedRule) : List Letter := r.before.map Symbol.letter

theorem DottedRule.read_of_advance? {r r' : DottedRule} {s : Symbol} (hs : r.postDot? = some s)
    (h : r.advance? = some r') : r'.read = r.read ++ [s.letter] := by
  rw [read, before_of_advance? hs h, List.map_append]
  rfl

/-- The input can be read so that `r` fits: `u` up to its origin, where its
left-hand side is awaited, then `v`, which the symbols before the dot derive. -/
def Fits (g : Grammar) (input : List (List Token)) (r : DottedRule) (i j : Nat) : Prop :=
  ∃ u v, Reads input 0 u i ∧ Reads input i v j ∧ Awaited g (u.map .token) r.lhs ∧
    Derives g.productions r.read (v.map .token)

theorem Deducible.fits {r : DottedRule} {i j : Nat} (h : Deducible g input r i j) : Fits g input r i j := by
  induction h with
  | start h =>
    obtain ⟨_, _, -, hA, rfl⟩ := Grammar.mem_initialRules.1 h
    refine ⟨[], [], rfl, rfl, ?_, .refl⟩
    rw [DottedRule.initial, hA]
    exact .start
  | @predict r r' i j A h hA h' ih =>
    obtain ⟨u, v, hu, hv, ha, hd⟩ := ih
    obtain ⟨_, _, -, hp, rfl⟩ := Grammar.mem_initialRules.1 h'
    obtain ⟨rest, hr⟩ := DottedRule.postDot?_eq_some_iff.1 hA
    obtain ⟨q, hq, hlhs, hrhs⟩ := h.hasRule.exists_mem
    refine ⟨u ++ v, [], reads_append.2 ⟨i, hu, hv⟩, rfl, ?_, .refl⟩
    rw [DottedRule.initial, hp, List.map_append]
    exact .within (hlhs ▸ ha) hq (hr ▸ hrhs) hd
  | @scan r r' i j l h hl ht hr ih =>
    obtain ⟨u, v, hu, hv, ha, hd⟩ := ih
    refine ⟨u, v ++ [l.tokenType], hu, reads_append.2 ⟨j, hv, ht, rfl⟩, ?_, ?_⟩
    · rwa [(DottedRule.advance?_some hr).2.1]
    · rw [DottedRule.read_of_advance? hl hr, List.map_append]
      exact hd.append .refl
  | @complete r r' c i k j h hA h' hc hr ih ih' =>
    obtain ⟨u, v, hu, hv, ha, hd⟩ := ih
    obtain ⟨-, v', -, hv', -, hd'⟩ := ih'
    obtain ⟨q, hq, hlhs, hrhs⟩ := h'.hasRule.exists_mem
    rw [DottedRule.isComplete_iff.1 hc, List.append_nil] at hrhs
    have hc' : Derives g.productions [.nonTerminal c.lhs] (v'.map .token) := by
      rw [← hlhs]
      exact (Derives.of_mem hq).trans (hrhs ▸ hd')
    refine ⟨u, v ++ v', hu, reads_append.2 ⟨k, hv, hv'⟩, ?_, ?_⟩
    · rwa [(DottedRule.advance?_some hr).2.1]
    · rw [DottedRule.read_of_advance? hA hr, List.map_append]
      exact hd.append hc'

/-! ## Completeness -/

/-- The dot moves over symbols that derive what can be read. -/
theorem Deducible.advance_over {i j k : Nat} {w : List TokenType} {id : ProductionId} {A : NonTerminal}
    {u v rest : List Symbol} (h : Deducible g input ⟨id, A, u, v ++ rest⟩ i j)
    (hv : Yields g.productions (v.map Symbol.letter) w) (hw : Reads input j w k) :
    Deducible g input ⟨id, A, u ++ v, rest⟩ i k := by
  generalize hx : v.map Symbol.letter = x at hv
  induction hv generalizing id A u v rest i j k with
  | nil =>
    obtain rfl := List.map_eq_nil_iff.1 hx
    obtain rfl : j = k := hw
    simpa using h
  | token _ ih =>
    obtain ⟨s, v, rfl, hs, rfl⟩ := List.map_eq_cons_iff.1 hx
    obtain ⟨l, rfl, rfl⟩ := Symbol.letter_eq_token.1 hs
    have := ih (u := u ++ [.terminal l]) (.scan h rfl hw.1 rfl) hw.2 rfl
    simpa using this
  | @nonTerminal p x' w₁ w₂ hp _ _ ihr ih =>
    obtain ⟨s, v, rfl, hs, rfl⟩ := List.map_eq_cons_iff.1 hx
    rw [Symbol.letter_eq_nonTerminal] at hs
    subst hs
    obtain ⟨m, hm, hk⟩ := reads_append.1 hw
    obtain ⟨n, hn⟩ := List.mem_iff_getElem?.1 hp
    have hinit : Deducible g input ⟨n, p.lhs, [], p.rhs ++ []⟩ j j :=
      .predict h rfl (Grammar.mem_initialRules.2 ⟨n, p, hn, rfl, by simp [DottedRule.initial]⟩)
    -- The production is recognized by the same argument, then the dot moves over it.
    have hdone := ihr hinit hm rfl
    have := ih (u := u ++ [.nonTerminal p.lhs]) (.complete h rfl hdone rfl rfl) hk rfl
    simpa using this

/-- The productions of what is awaited are deducible. -/
theorem Deducible.of_awaited {v : List Letter} {A : NonTerminal} {w : List TokenType} {j : Nat} {r : DottedRule}
    (h : Awaited g v A) (hv : v = w.map .token) (hw : Reads input 0 w j) (hr : r ∈ g.initialRules A) :
    Deducible g input r j j := by
  induction h generalizing w j r with
  | start =>
    obtain rfl := List.map_eq_nil_iff.1 hv.symm
    obtain rfl : 0 = j := hw
    exact .start hr
  | @within x y p before after A _ hp hrhs hd ih =>
    obtain ⟨w₁, w₂, rfl, rfl, rfl⟩ := List.map_eq_append_iff.1 hv.symm
    obtain ⟨k, hk, hj⟩ := reads_append.1 hw
    obtain ⟨n, hn⟩ := List.mem_iff_getElem?.1 hp
    have hinit : Deducible g input ⟨n, p.lhs, [], before ++ .nonTerminal A :: after⟩ k k :=
      ih rfl hk (Grammar.mem_initialRules.2 ⟨n, p, hn, rfl, by simp [DottedRule.initial, hrhs]⟩)
    exact .predict (hinit.advance_over (derives_iff_yields.1 hd) hj) rfl hr

theorem Fits.deducible {r : DottedRule} {i j : Nat} (h : Fits g input r i j) (hr : g.HasRule r) :
    Deducible g input r i j := by
  obtain ⟨u, v, hu, hv, ha, hd⟩ := h
  have hinit : Deducible g input ⟨r.production, r.lhs, [], r.before ++ r.after⟩ i i :=
    .of_awaited ha rfl hu (Grammar.mem_initialRules.2 ⟨_, _, hr, rfl, rfl⟩)
  exact hinit.advance_over (derives_iff_yields.1 hd) hv

theorem deducible_iff_fits {r : DottedRule} {i j : Nat} :
    Deducible g input r i j ↔ g.HasRule r ∧ Fits g input r i j :=
  ⟨fun h => ⟨h.hasRule, h.fits⟩, fun ⟨hr, h⟩ => h.deducible hr⟩

/-- The two readings are one reading, cut in two at the origin. -/
theorem fits_iff {r : DottedRule} {i j : Nat} (hj : j ≤ input.length) : Fits g input r i j ↔ i ≤ j ∧
    ∃ w, Matches w (input.take j) ∧
      (∃ rest, Derives g.productions [.nonTerminal g.start] ((w.take i).map .token ++ .nonTerminal r.lhs :: rest)) ∧
      Derives g.productions r.read ((w.drop i).map .token) := by
  constructor
  · rintro ⟨u, v, hu, hv, ha, hd⟩
    obtain ⟨-, hm⟩ := (reads_iff hj).1 (reads_append.2 ⟨i, hu, hv⟩)
    have hlen : u.length = i := by simpa using hu.length_eq.symm
    refine ⟨((reads_iff hj).1 hv).1, u ++ v, hm, ?_, ?_⟩
    · rw [List.take_left' hlen]
      exact awaited_iff.1 ha
    · rwa [List.drop_left' hlen]
  · rintro ⟨hij, w, hm, ha, hd⟩
    have hw : Reads input 0 w j := (reads_iff hj).2 ⟨Nat.zero_le _, hm⟩
    have hlen : w.length = j := by simpa using hw.length_eq.symm
    rw [← List.take_append_drop i w] at hw
    obtain ⟨k, hu, hv⟩ := reads_append.1 hw
    -- A reading is as long as the way it goes, so it is cut at the origin.
    obtain rfl : k = i := by
      have := hu.length_eq
      rw [List.length_take] at this
      omega
    exact ⟨w.take k, w.drop k, hu, hv, awaited_iff.2 ha, hd⟩

/-! ## Sentences and what may follow -/

theorem completes_iff : Completes g input ↔ ∃ w, Reads input 0 w input.length ∧ g.Sentence w := by
  constructor
  · rintro ⟨r, h, hc, hs⟩
    obtain ⟨u, v, hu, hv, -, hd⟩ := h.fits
    obtain ⟨p, hp, hlhs, hrhs⟩ := h.hasRule.exists_mem
    rw [DottedRule.isComplete_iff.1 hc, List.append_nil] at hrhs
    refine ⟨v, hv, ?_⟩
    rw [Grammar.Sentence, ← hs, ← hlhs]
    exact (Derives.of_mem hp).trans (hrhs ▸ hd)
  · rintro ⟨w, hw, hs⟩
    obtain ⟨p, hp, hlhs, hr⟩ := Yields.nonTerminal_iff.1 (derives_iff_yields.1 hs)
    obtain ⟨n, hn⟩ := List.mem_iff_getElem?.1 hp
    have hinit : Deducible g input ⟨n, p.lhs, [], p.rhs ++ []⟩ 0 0 :=
      .start (Grammar.mem_initialRules.2 ⟨n, p, hn, hlhs, by simp [DottedRule.initial]⟩)
    exact ⟨_, hinit.advance_over hr hw, rfl, hlhs⟩

theorem expects_iff {t : TokenType} : Expects g input t ↔ ∃ w, Reads input 0 w input.length ∧
    ∃ rest, Derives g.productions [.nonTerminal g.start] (w.map .token ++ .token t :: rest) := by
  constructor
  · rintro ⟨r, i, l, h, hl, rfl⟩
    obtain ⟨u, v, hu, hv, ha, hd⟩ := h.fits
    obtain ⟨after, hr⟩ := DottedRule.postDot?_eq_some_iff.1 hl
    obtain ⟨q, hq, hlhs, hrhs⟩ := h.hasRule.exists_mem
    obtain ⟨rest, hrest⟩ := awaited_iff.1 ha
    refine ⟨u ++ v, reads_append.2 ⟨i, hu, hv⟩, after.map Symbol.letter ++ rest, ?_⟩
    have hrhs' : q.rhs.map Symbol.letter = r.read ++ .token l.tokenType :: after.map Symbol.letter := by
      simp [hrhs, hr, DottedRule.read, Symbol.letter]
    have h := (Derives.step hq (hlhs ▸ hrest)).trans (.between _ rest (hrhs' ▸ hd.append .refl))
    simpa using h
  · rintro ⟨w, hw, rest, h⟩
    rcases exists_awaited h rfl with ⟨-, ht⟩ | ⟨p, hp, before, s, after, v₁, v₂, hr, hs, hv, ha, hd⟩
    · cases ht
    · obtain ⟨l, rfl, rfl⟩ := Symbol.letter_eq_token.1 hs
      obtain ⟨w₁, w₂, rfl, rfl, rfl⟩ := List.map_eq_append_iff.1 hv
      obtain ⟨k, hk, hj⟩ := reads_append.1 hw
      obtain ⟨n, hn⟩ := List.mem_iff_getElem?.1 hp
      have hfits : Fits g input ⟨n, p.lhs, before, .terminal l :: after⟩ k input.length :=
        ⟨w₁, w₂, hk, hj, ha, hd⟩
      exact ⟨_, k, l, hfits.deducible (by simp [Grammar.HasRule, hn, ← hr]), rfl, rfl⟩

end ChartParser
