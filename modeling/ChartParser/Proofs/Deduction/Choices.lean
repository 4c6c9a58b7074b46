import ChartParser.Proofs.InStep
import ChartParser.Proofs.Session
/-!
# Alternatives without order

What is deducible from an input depends on the set of token types at each location,
not on the order or number of the tokens that have them. So do all answers, and two
recognizers that follow one grammar stay alike when the tokens they are offered
differ in nothing else (`Follows.sessionsAgree`).
-/
namespace ChartParser

/-- Tokens of the same types, in any order and number. -/
def SameTypeSet (tokens tokens' : List Token) : Prop :=
  ∀ x, x ∈ tokens.map (·.tokenType) ↔ x ∈ tokens'.map (·.tokenType)

/-- Inputs with the same types of tokens at each location. -/
def SameChoices : List (List Token) → List (List Token) → Prop := List.Forall₂ SameTypeSet

variable {g : Grammar} {input input' : List (List Token)} {tokens tokens' : List Token}

theorem SameTypeSet.symm (h : SameTypeSet tokens tokens') : SameTypeSet tokens' tokens := fun x => (h x).symm

theorem SameTypeSet.exists_mem (h : SameTypeSet tokens tokens') {t : Token} (ht : t ∈ tokens) :
    ∃ t' ∈ tokens', t'.tokenType = t.tokenType :=
  List.mem_map.1 ((h t.tokenType).1 (List.mem_map_of_mem ht))

namespace SameChoices

theorem symm (h : SameChoices input input') : SameChoices input' input :=
  List.Forall₂.flip (List.Forall₂.imp (fun _ _ ht => ht.symm) h)

theorem length_eq (h : SameChoices input input') : input.length = input'.length := List.Forall₂.length_eq h

/-! ## What is deducible -/

theorem offers (h : SameChoices input input') {j : Nat} {t : TokenType} (ht : Offers input j t) : Offers input' j t := by
  obtain ⟨tokens, hj, token, hmem, rfl⟩ := ht
  have hboth := forall₂_getElem? h j
  rw [hj] at hboth
  generalize hj' : input'[j]? = other at hboth
  cases hboth with
  | some hsame =>
    obtain ⟨token', hmem', htype⟩ := hsame.exists_mem hmem
    exact ⟨_, hj', token', hmem', htype⟩

theorem deducible (h : SameChoices input input') {r : DottedRule} {i j : Nat} (hd : Deducible g input r i j) :
    Deducible g input' r i j := by
  induction hd with
  | start hr => exact .start hr
  | predict _ hA hr' ih => exact .predict ih hA hr'
  | scan _ hl ht ha ih => exact .scan ih hl (h.offers ht) ha
  | complete _ hA _ hc ha ih ih' => exact .complete ih hA ih' hc ha

theorem deducible_iff (h : SameChoices input input') {r : DottedRule} {i j : Nat} :
    Deducible g input r i j ↔ Deducible g input' r i j :=
  ⟨h.deducible, h.symm.deducible⟩

/-! ## What is answered -/

theorem completes_iff (h : SameChoices input input') : Completes g input ↔ Completes g input' := by
  simp only [Completes, h.length_eq, h.deducible_iff]

theorem expectsRule_iff (h : SameChoices input input') {id : LexerRuleId} :
    ExpectsRule g input id ↔ ExpectsRule g input' id := by
  simp only [ExpectsRule, h.length_eq, h.deducible_iff]

theorem expectedAfter_eq (h : SameChoices input input') : g.expectedAfter input = g.expectedAfter input' := by
  classical
  unfold Grammar.expectedAfter
  congr 1
  apply List.filter_congr
  intro id _
  simp only [h.expectsRule_iff]

theorem continues (h : SameChoices input input') (ht : SameTypeSet tokens tokens') (hc : Continues g input tokens) :
    Continues g input' tokens' := by
  obtain ⟨t, hmem, r, i, l, hd, hl, htype⟩ := hc
  obtain ⟨t', hmem', htype'⟩ := ht.exists_mem hmem
  exact ⟨t', hmem', r, i, l, h.length_eq ▸ h.deducible hd, hl, htype.trans htype'.symm⟩

theorem answer (h : SameChoices input input') {call call' : Call} (hcall : call.Rel SameTypeSet call') :
    (g.answer input call).1 = (g.answer input' call').1 ∧
      SameChoices (g.answer input call).2 (g.answer input' call').2 := by
  cases hcall with
  | @offer tokens tokens' ht =>
    by_cases hc : Continues g input tokens
    · have hc' := h.continues ht hc
      rw [Grammar.answer, Grammar.answer, if_pos hc, if_pos hc']
      exact ⟨rfl, List.rel_append h (.cons ht .nil)⟩
    · have hc' : ¬Continues g input' tokens' := fun hc' => hc (h.symm.continues ht.symm hc')
      rw [Grammar.answer, Grammar.answer, if_neg hc, if_neg hc']
      exact ⟨rfl, h⟩
  | expected => exact ⟨congrArg Answer.expected h.expectedAfter_eq, h⟩
  | restart => exact ⟨rfl, .nil⟩

theorem answers (h : SameChoices input input') {calls calls' : List Call}
    (hcalls : List.Forall₂ (Call.Rel SameTypeSet) calls calls') :
    (g.answers input calls).1 = (g.answers input' calls').1 ∧
      SameChoices (g.answers input calls).2 (g.answers input' calls').2 := by
  induction hcalls generalizing input input' with
  | nil => exact ⟨rfl, h⟩
  | cons hcall _ ih =>
    obtain ⟨hanswer, h⟩ := h.answer (g := g) hcall
    obtain ⟨hanswers, h⟩ := ih h
    exact ⟨congrArg₂ List.cons hanswer hanswers, h⟩

end SameChoices

/-! ## Recognizers that follow the grammar -/

/-- If two recognizers follow one grammar, sessions with the same choices agree, and all
that the choices decide of the parses is the same. -/
theorem Follows.sessionsAgree {P R P' R' : Type} [Recognizer P R] [Recognizer P' R'] {p : P} {p' : P'}
    {Tracks : List (List Token) → R → Prop} {Tracks' : List (List Token) → R' → Prop} {start : Except Fault R}
    {start' : Except Fault R'} {calls calls' : List Call} {Same : R → R' → Prop} (hf : Follows p g Tracks)
    (hf' : Follows p' g Tracks') (h : Succeeds start (Tracks [])) (h' : Succeeds start' (Tracks' []))
    (hcalls : List.Forall₂ (Call.Rel SameTypeSet) calls calls')
    (hsame : ∀ input input' run run', Tracks input run → Tracks' input' run' → SameChoices input input' → Same run run') :
    SessionsAgree p p' start start' calls calls' Same := by
  obtain ⟨run₀, rfl, h⟩ := h
  obtain ⟨run₀', rfl, h'⟩ := h'
  obtain ⟨hanswers, hin⟩ := SameChoices.answers (g := g) .nil hcalls
  obtain ⟨answers, run, run', hrun, hrun', h, h'⟩ := hf.performAll_of_answers hf' h h' hanswers
  have halike := hf.alike_of_eq hf' h h' hin.length_eq hin.completes_iff hin.expectedAfter_eq
  exact ⟨answers, run, run', hrun, hrun', halike, hsame _ _ _ _ h h' hin⟩

end ChartParser
