import ChartParser.Proofs.Deduction.Meaning
import ChartParser.Proofs.Expectations
import ChartParser.Recognizer
/-!
# Sessions with a recognizer

A session is a list of calls, whose answers follow one another. `Follows` says
of a recognizer that it keeps track of the input it has taken, and that its
answers are those that the deducible items give. Two recognizers that follow the
same grammar therefore give the same answers in every session
(`Follows.performAll_spec`), and each of them decides which words are sentences
(`Follows.recognizeFresh_spec`).
-/
namespace ChartParser

/-- What can be asked of a recognizer. -/
inductive Call where
  | offer (tokens : List Token)
  | expected
  | restart

/-- Calls of one kind; the tokens of two offers are related by `R`. -/
inductive Call.Rel (R : List Token → List Token → Prop) : Call → Call → Prop
  | offer {tokens tokens' : List Token} (h : R tokens tokens') : Call.Rel R (.offer tokens) (.offer tokens')
  | expected : Call.Rel R .expected .expected
  | restart : Call.Rel R .restart .restart

theorem Call.exists_last_restart (calls : List Call) : Call.restart ∉ calls ∨
    ∃ history more, calls = history ++ .restart :: more ∧ Call.restart ∉ more := by
  induction calls with
  | nil => exact .inl (by simp)
  | cons call calls ih =>
    rcases ih with h | ⟨history, more, rfl, hmore⟩
    · by_cases hcall : call = .restart
      · exact .inr ⟨[], calls, by rw [hcall]; rfl, h⟩
      · exact .inl (by simpa [Ne.symm hcall] using h)
    · exact .inr ⟨call :: history, more, rfl, hmore⟩

/-- What a recognizer answers. -/
inductive Answer where
  | taken (taken : Bool)
  | expected (rules : List LexerRule)
  | restarted

namespace Recognizer

variable {P R : Type} [Recognizer P R]

def perform (p : P) (run : R) : Call → Except Fault (Answer × R)
  | .offer tokens => do
    let (taken, run) ← offer p run tokens
    return (.taken taken, run)
  | .expected => do
    let (rules, run) ← expected p run
    return (.expected rules, run)
  | .restart => do
    let run ← restart p run
    return (.restarted, run)

/-- The answers to the calls, one after the other. -/
def performAll (p : P) (run : R) : List Call → Except Fault (List Answer × R)
  | [] => return ([], run)
  | call :: calls => do
    let (answer, run) ← perform p run call
    let (answers, run) ← performAll p run calls
    return (answer :: answers, run)

theorem performAll_restart_cons {p : P} {run run' next : R} {calls : List Call} {answers : List Answer}
    (hrestart : restart p run = .ok run') (h : performAll p run' calls = .ok (answers, next)) :
    performAll p run (.restart :: calls) = .ok (.restarted :: answers, next) := by
  simp only [performAll, perform, hrestart, h, bind, Except.bind, pure, Except.pure]

theorem performAll_append {p : P} {run run' next : R} {calls calls' : List Call} {answers answers' : List Answer}
    (h : performAll p run calls = .ok (answers, run')) (h' : performAll p run' calls' = .ok (answers', next)) :
    performAll p run (calls ++ calls') = .ok (answers ++ answers', next) := by
  induction calls generalizing run answers with
  | nil =>
    cases h
    exact h'
  | cons call calls ih =>
    obtain ⟨⟨answer, run₁⟩, hcall, h⟩ := bind_eq_ok_iff.1 h
    obtain ⟨⟨answers₁, run₂⟩, hcalls, h⟩ := bind_eq_ok_iff.1 h
    cases h
    rw [List.cons_append, performAll, hcall]
    simp only [bind, Except.bind, ih hcalls]
    rfl

/-- What each call keeps, a session keeps. -/
theorem performAll_keeps {Q : R → Prop} {p : P}
    (hcall : ∀ {run run' : R} {call answer}, Q run → perform p run call = .ok (answer, run') → Q run')
    {run run' : R} {calls : List Call} {answers : List Answer} (h : performAll p run calls = .ok (answers, run'))
    (hrun : Q run) : Q run' := by
  induction calls generalizing run answers with
  | nil =>
    cases h
    exact hrun
  | cons call calls ih =>
    obtain ⟨⟨answer, run₁⟩, hfirst, h⟩ := bind_eq_ok_iff.1 h
    obtain ⟨⟨answers₁, run₂⟩, hcalls, h⟩ := bind_eq_ok_iff.1 h
    cases h
    exact ih hcalls (hcall hrun hfirst)

end Recognizer

/-! ## What is to be answered -/

/-- The lexer rule at `id` stands after the dot of an item at the end of the input. -/
def ExpectsRule (g : Grammar) (input : List (List Token)) (id : LexerRuleId) : Prop :=
  ∃ r i, Deducible g input r i input.length ∧ g.postDotLexerRuleId? r = some id

namespace Grammar

open Classical

noncomputable def expectedAfter (g : Grammar) (input : List (List Token)) : List LexerRule :=
  g.rulesAt ((List.range g.lexerRules.length).filter fun id => ExpectsRule g input id)

theorem rulesAt_eq_expectedAfter {g : Grammar} {input : List (List Token)} {ids : List LexerRuleId}
    (h : ∀ id, id ∈ ids ↔ ExpectsRule g input id) : g.rulesAt ids = g.expectedAfter input := by
  apply rulesAt_congr
  intro id
  rw [h, List.mem_filter, List.mem_range, decide_eq_true_eq]
  constructor
  · intro hid
    have ⟨_, _, _, hr⟩ := hid
    exact ⟨lt_of_postDotLexerRuleId? hr, hid⟩
  · exact fun hid => hid.2

/-- The answer to a call after `input`, and the input after the call. -/
noncomputable def answer (g : Grammar) (input : List (List Token)) : Call → Answer × List (List Token)
  | .offer tokens =>
    if Continues g input tokens then (.taken true, input ++ [tokens]) else (.taken false, input)
  | .expected => (.expected (g.expectedAfter input), input)
  | .restart => (.restarted, [])

noncomputable def answers (g : Grammar) (input : List (List Token)) : List Call → List Answer × List (List Token)
  | [] => ([], input)
  | call :: calls =>
    let (answer, input) := g.answer input call
    let (answers, input) := g.answers input calls
    (answer :: answers, input)

/-- When all tokens are taken, the input is all tokens. -/
theorem answers_offers {g : Grammar} {input more : List (List Token)}
    (h : (g.answers input (more.map .offer)).1 = more.map fun _ => .taken true) :
    (g.answers input (more.map .offer)).2 = input ++ more := by
  induction more generalizing input with
  | nil => simp [answers]
  | cons tokens more ih =>
    simp only [List.map_cons, answers, List.cons.injEq] at h ⊢
    have hc : Continues g input tokens := by
      by_contra hc
      simp [answer, hc] at h
    have hans : g.answer input (.offer tokens) = (.taken true, input ++ [tokens]) := if_pos hc
    rw [hans] at h ⊢
    rw [ih h.2]
    simp

end Grammar

/-! ## Recognizers that follow a grammar -/

/-- `Tracks input run` is kept by all calls and tells how they are answered. -/
structure Follows {P R : Type} [Recognizer P R] (p : P) (g : Grammar) (Tracks : List (List Token) → R → Prop) :
    Prop where
  location_eq : ∀ {input run}, Tracks input run → Recognizer.location P run = input.length
  isAccepted_iff : ∀ {input run}, Tracks input run → (Recognizer.isAccepted p run = true ↔ Completes g input)
  offer_spec : ∀ {input run}, Tracks input run → ∀ tokens, Succeeds (Recognizer.offer p run tokens) fun x =>
    (x.1 = true ∧ Continues g input tokens ∧ Tracks (input ++ [tokens]) x.2) ∨
      (x.1 = false ∧ ¬Continues g input tokens ∧ Tracks input x.2)
  expected_spec : ∀ {input run}, Tracks input run →
    Succeeds (Recognizer.expected p run) fun x => x.1 = g.expectedAfter input ∧ Tracks input x.2
  restart_spec : ∀ {input run}, Tracks input run → Succeeds (Recognizer.restart p run) (Tracks [])

namespace Follows

variable {P R : Type} [Recognizer P R] {p : P} {g : Grammar} {Tracks : List (List Token) → R → Prop}
  {input : List (List Token)} {run : R}

theorem perform_spec (hf : Follows p g Tracks) (h : Tracks input run) (call : Call) :
    Succeeds (Recognizer.perform p run call) fun x =>
      x.1 = (g.answer input call).1 ∧ Tracks (g.answer input call).2 x.2 := by
  cases call with
  | offer tokens =>
    refine (hf.offer_spec h tokens).bind fun x hx => .pure ?_
    rcases hx with ⟨hx, hc, ht⟩ | ⟨hx, hc, ht⟩
    · rw [Grammar.answer, if_pos hc, hx]
      exact ⟨rfl, ht⟩
    · rw [Grammar.answer, if_neg hc, hx]
      exact ⟨rfl, ht⟩
  | expected => exact (hf.expected_spec h).bind fun x ⟨hx, ht⟩ => .pure ⟨by rw [hx]; rfl, ht⟩
  | restart => exact (hf.restart_spec h).bind fun run' ht => .pure ⟨rfl, ht⟩

theorem performAll_spec (hf : Follows p g Tracks) (h : Tracks input run) (calls : List Call) :
    Succeeds (Recognizer.performAll p run calls) fun x =>
      x.1 = (g.answers input calls).1 ∧ Tracks (g.answers input calls).2 x.2 := by
  induction calls generalizing input run with
  | nil => exact .pure ⟨rfl, h⟩
  | cons call calls ih =>
    refine (hf.perform_spec h call).bind fun x ⟨hx, ht⟩ => ?_
    refine (ih ht).bind fun y ⟨hy, ht'⟩ => .pure ⟨?_, ht'⟩
    rw [hx, hy]
    rfl

/-- What holds of every tracked parse holds after every session. -/
theorem session_spec (hf : Follows p g Tracks) {start : Except Fault R} (hstart : Succeeds start (Tracks []))
    (calls : List Call) :
    Succeeds (do Recognizer.performAll p (← start) calls) fun x => ∃ input, Tracks input x.2 :=
  hstart.bind fun _ h => (hf.performAll_spec h calls).mono fun _ hx => ⟨_, hx.2⟩

theorem taken_iff (hf : Follows p g Tracks) (h : Tracks input run) (tokens : List Token) :
    Succeeds (Recognizer.offer p run tokens) fun x => (x.1 = true ↔ Continues g input tokens) := by
  refine (hf.offer_spec h tokens).mono fun x hx => ?_
  rcases hx with ⟨hx, hc, -⟩ | ⟨hx, hc, -⟩
  · exact iff_of_true hx hc
  · exact iff_of_false (by simp [hx]) hc

theorem not_continues (hf : Follows p g Tracks) (h : Tracks input run) {tokens : List Token} {next : R}
    (hoffer : Recognizer.offer p run tokens = .ok (false, next)) : ¬Continues g input tokens := by
  intro hc
  have htaken := ((hf.taken_iff h tokens).of_ok hoffer).2 hc
  cases htaken

theorem tracks_of_taken (hf : Follows p g Tracks) (h : Tracks input run) {more : List (List Token)} {run' : R}
    (hrun : Recognizer.performAll p run (more.map .offer) = .ok (more.map fun _ => .taken true, run')) :
    Tracks (input ++ more) run' := by
  obtain ⟨x, hx, hans, ht⟩ := hf.performAll_spec h (more.map .offer)
  rw [hrun, Except.ok.injEq] at hx
  subst hx
  rw [Grammar.answers_offers hans.symm] at ht
  exact ht

/-- Recognition stops at the first token that does not fit, and no word that goes
on from there is a sentence. -/
theorem recognize_spec (hf : Follows p g Tracks) (h : Tracks input run) (tokens : List Token) :
    Succeeds (Recognizer.recognize p run tokens) fun x =>
      (x.1 = true ↔ Completes g (input ++ tokens.map ([·]))) := by
  induction tokens generalizing input run with
  | nil => exact .pure (by simpa using hf.isAccepted_iff h)
  | cons t tokens ih =>
    refine (hf.offer_spec h [t]).bind fun x hx => ?_
    rcases hx with ⟨hx, -, ht⟩ | ⟨hx, hc, -⟩
    · simp only [hx, if_true]
      exact (ih ht).mono fun y hy => by simpa using hy
    · simp only [hx]
      -- A complete item further on would have come from the rejected token.
      refine .pure (iff_of_false (by simp) ?_)
      rintro ⟨r, hr, -⟩
      exact hc (hr.continues (by simp))

theorem recognizeFresh_spec (hf : Follows p g Tracks) (h : Tracks input run) (tokens : List Token) :
    Succeeds (Recognizer.recognizeFresh p run tokens) fun x =>
      (x.1 = true ↔ g.Sentence (tokens.map (·.tokenType))) := by
  refine (hf.restart_spec h).bind fun run' ht => (hf.recognize_spec ht tokens).mono fun x hx => ?_
  rw [hx, List.nil_append, completes_iff]
  simp only [reads_singletons, exists_eq_left]

end Follows

/-! ## Two recognizers of one grammar -/

section Two

variable {P R P' R' : Type} [Recognizer P R] [Recognizer P' R'] {p : P} {p' : P'} {g : Grammar}
  {Tracks : List (List Token) → R → Prop} {Tracks' : List (List Token) → R' → Prop}
  {input input' : List (List Token)} {run : R} {run' : R'}

/-- Nothing that can be asked of the two tells them apart. -/
structure Alike (p : P) (p' : P') (run : R) (run' : R') : Prop where
  location_eq : Recognizer.location P run = Recognizer.location P' run'
  isAccepted_eq : Recognizer.isAccepted p run = Recognizer.isAccepted p' run'
  expected_eq : ∃ rules next next',
    Recognizer.expected p run = .ok (rules, next) ∧ Recognizer.expected p' run' = .ok (rules, next')

/-- The sessions give the same answers, the parses after them are alike, and `Same`
relates them. -/
def SessionsAgree (p : P) (p' : P') (start : Except Fault R) (start' : Except Fault R') (calls calls' : List Call)
    (Same : R → R' → Prop) : Prop :=
  ∃ answers run run',
    (do Recognizer.performAll p (← start) calls) = .ok (answers, run) ∧
    (do Recognizer.performAll p' (← start') calls') = .ok (answers, run') ∧
    Alike p p' run run' ∧ Same run run'

/-- Parses are alike if the grammar says the same of what they have taken. -/
theorem Follows.alike_of_eq (hf : Follows p g Tracks) (hf' : Follows p' g Tracks') (h : Tracks input run)
    (h' : Tracks' input' run') (hlength : input.length = input'.length)
    (hcompletes : Completes g input ↔ Completes g input') (hexpected : g.expectedAfter input = g.expectedAfter input') :
    Alike p p' run run' := by
  obtain ⟨⟨rules, next⟩, hx, hrules, -⟩ := hf.expected_spec h
  obtain ⟨⟨rules', next'⟩, hx', hrules', -⟩ := hf'.expected_spec h'
  refine ⟨?_, ?_, rules, next, next', hx, ?_⟩
  · rw [hf.location_eq h, hf'.location_eq h', hlength]
  · rw [Bool.eq_iff_iff, hf.isAccepted_iff h, hf'.isAccepted_iff h', hcompletes]
  · rw [show rules = rules' from (hrules.trans hexpected).trans hrules'.symm]
    exact hx'

theorem Follows.alike (hf : Follows p g Tracks) (hf' : Follows p' g Tracks') (h : Tracks input run)
    (h' : Tracks' input run') : Alike p p' run run' :=
  hf.alike_of_eq hf' h h' rfl Iff.rfl rfl

/-- If the grammar answers the calls alike, so do both recognizers. -/
theorem Follows.performAll_of_answers (hf : Follows p g Tracks) (hf' : Follows p' g Tracks') (h : Tracks input run)
    (h' : Tracks' input' run') {calls calls' : List Call} (hanswers : (g.answers input calls).1 = (g.answers input' calls').1) :
    ∃ answers next next', Recognizer.performAll p run calls = .ok (answers, next) ∧
      Recognizer.performAll p' run' calls' = .ok (answers, next') ∧
      Tracks (g.answers input calls).2 next ∧ Tracks' (g.answers input' calls').2 next' := by
  obtain ⟨⟨answers, next⟩, hx, hans, ht⟩ := hf.performAll_spec h calls
  obtain ⟨⟨answers', next'⟩, hx', hans', ht'⟩ := hf'.performAll_spec h' calls'
  refine ⟨answers, next, next', hx, ?_, ht, ht'⟩
  rw [show answers = answers' from (hans.trans hanswers).trans hans'.symm]
  exact hx'

/-- The same calls get the same answers, and both recognizers go on in step. -/
theorem Follows.performAll_agree (hf : Follows p g Tracks) (hf' : Follows p' g Tracks') (h : Tracks input run)
    (h' : Tracks' input run') (calls : List Call) : ∃ answers next next' input',
      Recognizer.performAll p run calls = .ok (answers, next) ∧
      Recognizer.performAll p' run' calls = .ok (answers, next') ∧ Tracks input' next ∧ Tracks' input' next' := by
  have hanswers : (g.answers input calls).1 = (g.answers input calls).1 := rfl
  obtain ⟨answers, next, next', hx, hx', ht, ht'⟩ := hf.performAll_of_answers hf' h h' hanswers
  exact ⟨answers, next, next', _, hx, hx', ht, ht'⟩

end Two

end ChartParser
