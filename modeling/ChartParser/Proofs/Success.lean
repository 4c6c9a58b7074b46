import ChartParser.Fault
/-!
# Computations that succeed

`Succeeds x Q` says that `x` ends without a fault and that `Q` holds of its
result. The lemmas follow the ways in which computations are put together.
-/
namespace ChartParser

variable {α β : Type}

def Succeeds (x : Except Fault α) (Q : α → Prop) : Prop := ∃ a, x = .ok a ∧ Q a

namespace Succeeds

variable {x : Except Fault α} {P Q : α → Prop}

theorem pure {a : α} (h : Q a) : Succeeds (pure a) Q := ⟨a, rfl, h⟩

theorem of_ok {a : α} (h : Succeeds x P) (hx : x = .ok a) : P a := by
  obtain ⟨b, hb, hP⟩ := h
  cases hx.symm.trans hb
  exact hP

theorem mono (h : Succeeds x P) (hPQ : ∀ a, P a → Q a) : Succeeds x Q := by
  obtain ⟨a, rfl, ha⟩ := h
  exact ⟨a, rfl, hPQ a ha⟩

theorem bind {f : α → Except Fault β} {R : β → Prop} (h : Succeeds x P) (hf : ∀ a, P a → Succeeds (f a) R) :
    Succeeds (x >>= f) R := by
  obtain ⟨a, rfl, ha⟩ := h
  exact hf a ha

theorem bind_ok {f : α → Except Fault β} {R : β → Prop} {a : α} (h : x = .ok a) (hf : Succeeds (f a) R) :
    Succeeds (x >>= f) R := by
  subst h
  exact hf

/-- A loop over a list moves along `R`, as each of its steps does. What a step
does for its element, `R` keeps, so in the end it is done for all. -/
theorem foldlM {f : β → α → Except Fault β} {R : β → β → Prop} {Done : α → β → Prop}
    (htrans : ∀ {a b c}, R a b → R b c → R a c) (hright : ∀ {a b}, R a b → R b b)
    (hkeep : ∀ {a b b'}, R b b' → Done a b → Done a b') {l : List α} {b : β} (hb : R b b)
    (hstep : ∀ b', R b b' → ∀ a ∈ l, Succeeds (f b' a) fun b'' => R b' b'' ∧ Done a b'') :
    Succeeds (l.foldlM f b) fun b' => R b b' ∧ ∀ a ∈ l, Done a b' := by
  induction l generalizing b with
  | nil => exact .pure ⟨hb, by simp⟩
  | cons a l ih =>
    rw [List.foldlM_cons]
    refine (hstep b hb a (by simp)).bind fun b₁ ⟨hR₁, hD⟩ => ?_
    have hrest := ih (hright hR₁) fun b' hb' x hx => hstep b' (htrans hR₁ hb') x (by simp [hx])
    refine hrest.mono fun b₂ ⟨hR₂, hall⟩ => ⟨htrans hR₁ hR₂, fun x hx => ?_⟩
    rcases List.mem_cons.1 hx with rfl | hx
    · exact hkeep hR₂ hD
    · exact hall x hx

theorem mapM {f : α → Except Fault β} {l : List α} (h : ∀ a ∈ l, ∃ b, f a = .ok b) :
    Succeeds (l.mapM f) fun bs => ∀ b, b ∈ bs ↔ ∃ a ∈ l, f a = .ok b := by
  induction l with
  | nil => exact .pure (by simp)
  | cons a l ih =>
    obtain ⟨b, hb⟩ := h a (by simp)
    rw [List.mapM_cons]
    refine .bind_ok hb ((ih fun x hx => h x (by simp [hx])).bind fun bs hbs => .pure fun b' => ?_)
    simp [hbs, hb, eq_comm]

end Succeeds

/-- A loop whose steps change nothing changes nothing. -/
theorem foldlM_eq_self {f : β → α → Except Fault β} {l : List α} {b : β} (h : ∀ a ∈ l, f b a = .ok b) :
    l.foldlM f b = .ok b := by
  induction l with
  | nil => rfl
  | cons a l ih =>
    rw [List.foldlM_cons, h a (by simp)]
    exact ih fun x hx => h x (by simp [hx])

/-- What each step of a loop keeps, the loop keeps. -/
theorem foldlM_keeps {f : β → α → Except Fault β} {P : β → Prop} {l : List α} {b b' : β}
    (hstep : ∀ {b a b'}, f b a = .ok b' → P b → P b') (h : l.foldlM f b = .ok b') (hb : P b) : P b' := by
  induction l generalizing b with
  | nil =>
    cases h
    exact hb
  | cons a l ih =>
    rw [List.foldlM_cons] at h
    obtain ⟨b₁, hb₁, h⟩ := bind_eq_ok_iff.1 h
    exact ih h (hstep hb₁ hb)

end ChartParser
