import ChartParser.Grammar.Derivation
import ChartParser.Proofs.Lists
/-!
# Derivations of words

`Derives` rewrites one non-terminal at a time, anywhere. `Yields` reads a word
off a sequence of letters from left to right, the way a parser meets it:
`derives_iff_yields` says that both reach the same words.

`Awaited g v A` says that `A` may come next after `v`, and how: every
non-terminal that is open at this place stands in a production of the one above
it. `awaited_iff` says that this is so exactly when the start symbol derives `v`
and then `A`, whatever follows.
-/
namespace ChartParser

variable {productions : List Production}

/-! ## Reading a word off -/

/-- The letters derive the word, one letter after the other. -/
inductive Yields (productions : List Production) : List Letter → List TokenType → Prop
  | nil : Yields productions [] []
  | token {t : TokenType} {rest : List Letter} {w : List TokenType} (h : Yields productions rest w) :
      Yields productions (.token t :: rest) (t :: w)
  | nonTerminal {p : Production} {rest : List Letter} {u v : List TokenType} (hp : p ∈ productions)
      (h : Yields productions (p.rhs.map Symbol.letter) u) (h' : Yields productions rest v) :
      Yields productions (.nonTerminal p.lhs :: rest) (u ++ v)

namespace Yields

theorem append {x y : List Letter} {u v : List TokenType} (h : Yields productions x u)
    (h' : Yields productions y v) : Yields productions (x ++ y) (u ++ v) := by
  induction h with
  | nil => exact h'
  | token _ ih => exact .token ih
  | nonTerminal hp hr _ _ ih =>
    rw [List.append_assoc]
    exact .nonTerminal hp hr ih

theorem append_iff {x y : List Letter} {w : List TokenType} : Yields productions (x ++ y) w ↔
    ∃ u v, w = u ++ v ∧ Yields productions x u ∧ Yields productions y v := by
  constructor
  · intro h
    induction x generalizing w with
    | nil => exact ⟨[], w, rfl, .nil, h⟩
    | cons a x ih =>
      cases h with
      | token h =>
        obtain ⟨u, v, rfl, hu, hv⟩ := ih h
        exact ⟨_ :: u, v, rfl, .token hu, hv⟩
      | nonTerminal hp hr h =>
        obtain ⟨u, v, rfl, hu, hv⟩ := ih h
        exact ⟨_ ++ u, v, (List.append_assoc ..).symm, .nonTerminal hp hr hu, hv⟩
  · rintro ⟨u, v, rfl, hu, hv⟩
    exact hu.append hv

theorem tokens (w : List TokenType) : Yields productions (w.map .token) w := by
  induction w with
  | nil => exact .nil
  | cons t w ih => exact .token ih

/-- A non-terminal yields what one of its productions yields. -/
theorem nonTerminal_iff {A : NonTerminal} {w : List TokenType} : Yields productions [.nonTerminal A] w ↔
    ∃ p ∈ productions, p.lhs = A ∧ Yields productions (p.rhs.map Symbol.letter) w := by
  constructor
  · intro h
    generalize hx : Letter.nonTerminal A = a at h
    cases h with
    | token h => cases hx
    | nonTerminal hp hr h =>
      cases h
      cases hx
      exact ⟨_, hp, rfl, by simpa using hr⟩
  · rintro ⟨p, hp, rfl, hr⟩
    simpa using Yields.nonTerminal hp hr .nil

/-- What the result of a derivation yields, its beginning yields, too. -/
theorem of_derives {x y : List Letter} {w : List TokenType} (h : Derives productions x y)
    (hy : Yields productions y w) : Yields productions x w := by
  induction h generalizing w with
  | refl => exact hy
  | step hp _ ih =>
    obtain ⟨_, v, rfl, hxr, hv⟩ := append_iff.1 hy
    obtain ⟨u, r, rfl, hu, hr⟩ := append_iff.1 hxr
    refine ih ?_
    rw [List.append_assoc]
    exact hu.append (.nonTerminal hp hr hv)

theorem derives {x : List Letter} {w : List TokenType} (h : Yields productions x w) :
    Derives productions x (w.map .token) := by
  induction h with
  | nil => exact .refl
  | @token t _ _ _ ih => exact Derives.append (u := [.token t]) .refl ih
  | nonTerminal hp _ _ ihr ih =>
    rw [List.map_append]
    exact ((Derives.of_mem hp).trans ihr).append ih

end Yields

theorem derives_iff_yields {x : List Letter} {w : List TokenType} :
    Derives productions x (w.map .token) ↔ Yields productions x w :=
  ⟨fun h => .of_derives h (.tokens w), fun h => h.derives⟩

/-! ## What may come next -/

/-- After `v`, the grammar awaits `A`: either nothing has been read and `A` is
the start symbol, or `A` stands in a production of an awaited non-terminal, and
what precedes it there has been read. -/
inductive Awaited (g : Grammar) : List Letter → NonTerminal → Prop
  | start : Awaited g [] g.start
  | within {v u : List Letter} {p : Production} {before after : List Symbol} {A : NonTerminal}
      (h : Awaited g v p.lhs) (hp : p ∈ g.productions) (hr : p.rhs = before ++ .nonTerminal A :: after)
      (hu : Derives g.productions (before.map Symbol.letter) u) : Awaited g (v ++ u) A

variable {g : Grammar}

/-- Rewriting what has been read keeps what is awaited. -/
theorem Awaited.rewrite {v x y : List Letter} {p : Production} {A : NonTerminal} (h : Awaited g v A)
    (hp : p ∈ g.productions) (hv : v = x ++ .nonTerminal p.lhs :: y) :
    Awaited g (x ++ p.rhs.map Symbol.letter ++ y) A := by
  induction h generalizing x y with
  | start => simp at hv
  | @within v u q before after A h hq hr hu ih =>
    rcases append_eq_append_cons hv with ⟨z, rfl, rfl⟩ | ⟨z, rfl, rfl⟩
    · simpa using Awaited.within h hq hr (.step hp hu)
    · simpa using Awaited.within (ih rfl) hq hr hu

/-- A letter that is derived after `v` is the start symbol itself, or a symbol
of a production of an awaited non-terminal. -/
theorem exists_awaited {z v rest : List Letter} {X : Letter}
    (h : Derives g.productions [.nonTerminal g.start] z) (hz : z = v ++ X :: rest) :
    (v = [] ∧ X = .nonTerminal g.start) ∨
      ∃ p ∈ g.productions, ∃ before s after v₁ v₂, p.rhs = before ++ s :: after ∧ s.letter = X ∧
        v = v₁ ++ v₂ ∧ Awaited g v₁ p.lhs ∧ Derives g.productions (before.map Symbol.letter) v₂ := by
  induction h generalizing v rest X with
  | refl =>
    rcases v with _ | ⟨a, v⟩
    · exact .inl ⟨rfl, by simp_all⟩
    · simp at hz
  | @step x y p hp h ih =>
    rcases append_eq_append_cons hz with ⟨z, rfl, rfl⟩ | ⟨z, hxr, rfl⟩
    · -- The letter comes after what was rewritten.
      have hin := @ih (x ++ .nonTerminal p.lhs :: z) rest X (by simp)
      simp only [List.append_eq_nil_iff, reduceCtorEq, and_false, false_and, false_or] at hin
      obtain ⟨q, hq, before, s, after, v₁, v₂, hqr, hs, hv, ha, hd⟩ := hin
      refine .inr ⟨q, hq, before, s, after, ?_⟩
      rcases append_eq_append_cons hv.symm with ⟨z', rfl, rfl⟩ | ⟨z', rfl, rfl⟩
      · exact ⟨v₁, z' ++ p.rhs.map Symbol.letter ++ z, hqr, hs, by simp, ha, .step hp hd⟩
      · exact ⟨x ++ p.rhs.map Symbol.letter ++ z', v₂, hqr, hs, by simp, ha.rewrite hp rfl, hd⟩
    · rcases append_eq_append_cons hxr with ⟨z', rfl, hr⟩ | ⟨z', rfl, rfl⟩
      · -- The letter is one of those that were put in.
        obtain ⟨before, after', hrhs, rfl, hX⟩ := List.map_eq_append_iff.1 hr
        obtain ⟨s, after, rfl, rfl, -⟩ := List.map_eq_cons_iff.1 hX
        have ha : Awaited g x p.lhs := by
          rcases ih rfl with ⟨rfl, hs⟩ | ⟨q, hq, before', s', after', v₁, v₂, hqr, hs, rfl, ha, hd⟩
          · rw [Letter.nonTerminal.injEq] at hs
            exact hs ▸ .start
          · rw [Symbol.letter_eq_nonTerminal] at hs
            subst hs
            exact .within ha hq hqr hd
        exact .inr ⟨p, hp, before, s, after, x, before.map Symbol.letter, hrhs, rfl, rfl, ha, .refl⟩
      · -- The letter comes before what was rewritten.
        exact @ih v (z' ++ .nonTerminal p.lhs :: y) X (by simp)

/-- What is awaited after `v` is what the start symbol derives after `v`. -/
theorem awaited_iff {v : List Letter} {A : NonTerminal} :
    Awaited g v A ↔ ∃ rest, Derives g.productions [.nonTerminal g.start] (v ++ .nonTerminal A :: rest) := by
  constructor
  · intro h
    induction h with
    | start => exact ⟨[], .refl⟩
    | @within v u p before after A _ hp hr hu ih =>
      obtain ⟨rest, ih⟩ := ih
      refine ⟨after.map Symbol.letter ++ rest, ?_⟩
      have h := (Derives.step hp ih).trans (.between v rest (hr ▸ List.map_append ▸ hu.append .refl))
      simpa [Symbol.letter] using h
  · rintro ⟨rest, h⟩
    rcases exists_awaited h rfl with ⟨rfl, hA⟩ | ⟨p, hp, before, s, after, v₁, v₂, hr, hs, rfl, ha, hd⟩
    · rw [Letter.nonTerminal.injEq] at hA
      exact hA ▸ .start
    · rw [Symbol.letter_eq_nonTerminal] at hs
      exact .within ha hp (hs ▸ hr) hd

end ChartParser
