import ChartParser.Chart
import ChartParser.Proofs.Lists
/-!
# Computations in step

`InStep R x y` says that `x` and `y` end alike: both with the same fault, or both
with results that `R` relates. The lemmas follow the ways in which computations
are put together.
-/
namespace ChartParser

variable {α β γ δ : Type} {R : α → β → Prop} {S : γ → δ → Prop}

inductive InStep (R : α → β → Prop) : Except Fault α → Except Fault β → Prop
  | ok {a : α} {b : β} (h : R a b) : InStep R (.ok a) (.ok b)
  | error (e : Fault) : InStep R (.error e) (.error e)

namespace InStep

variable {x : Except Fault α} {y : Except Fault β}

theorem refl (x : Except Fault α) : InStep Eq x x := by
  cases x with
  | error e => exact .error e
  | ok a => exact .ok rfl

theorem mono {T : α → β → Prop} (h : InStep R x y) (hRT : ∀ a b, R a b → T a b) : InStep T x y := by
  cases h with
  | error e => exact .error e
  | ok h => exact .ok (hRT _ _ h)

theorem bind {f : α → Except Fault γ} {f' : β → Except Fault δ} (h : InStep R x y)
    (hf : ∀ a b, R a b → InStep S (f a) (f' b)) : InStep S (x >>= f) (y >>= f') := by
  cases h with
  | error e => exact .error e
  | ok h => exact hf _ _ h

/-- Loops over lists whose entries correspond. -/
theorem foldlM {Q : γ → δ → Prop} {f : α → γ → Except Fault α} {f' : β → δ → Except Fault β} {l : List γ}
    {l' : List δ} {a : α} {b : β} (hl : List.Forall₂ Q l l') (h : R a b)
    (hstep : ∀ a b, R a b → ∀ c d, Q c d → InStep R (f a c) (f' b d)) :
    InStep R (l.foldlM f a) (l'.foldlM f' b) := by
  induction hl generalizing a b with
  | nil => exact .ok h
  | cons hcd _ ih =>
    rw [List.foldlM_cons, List.foldlM_cons]
    exact (hstep a b h _ _ hcd).bind fun a' b' h' => ih h'

theorem mapM {f : γ → Except Fault α} {f' : γ → Except Fault β} {l : List γ} (h : ∀ c ∈ l, InStep R (f c) (f' c)) :
    InStep (List.Forall₂ R) (l.mapM f) (l.mapM f') := by
  induction l with
  | nil => exact .ok .nil
  | cons c l ih =>
    rw [List.mapM_cons, List.mapM_cons]
    refine (h c (by simp)).bind fun a b hab => ?_
    exact (ih fun d hd => h d (by simp [hd])).bind fun as bs has => .ok (.cons hab has)

/-- What the one computation ends with, the other ends with in its own way. -/
theorem exists_ok {a : α} (h : InStep R (.ok a) y) : ∃ b, y = .ok b ∧ R a b := by
  cases h with
  | ok h => exact ⟨_, rfl, h⟩

end InStep

/-! ## Lists and charts whose entries correspond -/

/-- Entries at one place correspond, if there are any. -/
theorem fetch_inStep {l : List α} {l' : List β} (h : List.Forall₂ R l l') (i : Nat) :
    InStep R (fetch l i) (fetch l' i) := by
  have hi := forall₂_getElem? h i
  unfold fetch
  generalize l[i]? = a at hi ⊢
  generalize l'[i]? = b at hi ⊢
  cases hi with
  | none => exact h.length_eq ▸ .error _
  | some hab => exact .ok hab

/-- Changes that are in step on all corresponding sets are in step on the chart. -/
theorem Chart.update_inStep {c : Chart α} {c' : Chart β} (hc : List.Forall₂ R c.sets c'.sets) {k : Nat} {fresh : α}
    {fresh' : β} (hfresh : R fresh fresh') {change : α → Except Fault (Bool × α)} {change' : β → Except Fault (Bool × β)}
    (hchange : ∀ a b, R a b → InStep (fun x y => x.1 = y.1 ∧ R x.2 y.2) (change a) (change' b)) :
    (c.update k fresh change).1 = (c'.update k fresh' change').1 ∧
      List.Forall₂ R (c.update k fresh change).2.sets (c'.update k fresh' change').2.sets := by
  have hreach : InStep (fun d d' => List.Forall₂ R d.sets d'.sets) (c.reach k fresh) (c'.reach k fresh') := by
    unfold Chart.reach Chart.size
    rw [hc.length_eq]
    split
    · exact .ok hc
    · split
      · exact .ok (List.rel_append hc (.cons hfresh .nil))
      · exact .error _
  unfold Chart.update
  generalize c.reach k fresh = x at hreach
  generalize c'.reach k fresh' = y at hreach
  cases hreach with
  | error e => exact ⟨rfl, hc⟩
  | @ok d d' hd =>
    have hset := (fetch_inStep hd k).bind hchange
    dsimp only [Chart.get]
    generalize fetch d.sets k >>= change = x at hset
    generalize fetch d'.sets k >>= change' = y at hset
    cases hset with
    | error e => exact ⟨rfl, hd⟩
    | ok hab => exact ⟨congrArg Except.ok hab.1, forall₂_set hd k hab.2⟩

end ChartParser
