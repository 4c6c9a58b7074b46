import Mathlib.Data.List.Forall2
import Mathlib.Data.List.Induction
import Mathlib.Data.List.Nodup
/-!
# Lists

What is needed about lists in general: entries that correspond, repetitions, tables of
keys and values, and lists that grow at their end while a cursor moves along.
-/
namespace ChartParser

variable {α β γ : Type}

/-! ## Entries that correspond -/

section Entries

variable {R : α → β → Prop} {l : List α} {l' : List β}

theorem forall₂_getElem? (h : List.Forall₂ R l l') (i : Nat) : Option.Rel R l[i]? l'[i]? := by
  induction h generalizing i with
  | nil => exact .none
  | cons hab _ ih =>
    cases i with
    | zero => exact .some hab
    | succ i => exact ih i

theorem forall₂_set (h : List.Forall₂ R l l') (i : Nat) {a : α} {b : β} (hab : R a b) :
    List.Forall₂ R (l.set i a) (l'.set i b) := by
  induction h generalizing i with
  | nil => exact .nil
  | cons hcd hrest ih =>
    cases i with
    | zero => exact .cons hab hrest
    | succ i => exact .cons hcd (ih i)

theorem forall₂_find? (h : List.Forall₂ R l l') {p : α → Bool} {q : β → Bool} (hpq : ∀ a b, R a b → p a = q b) :
    Option.Rel R (l.find? p) (l'.find? q) := by
  induction h with
  | nil => exact .none
  | @cons a b l l' hab _ ih =>
    rw [List.find?_cons, List.find?_cons, hpq a b hab]
    cases q b with
    | false => exact ih
    | true => exact .some hab

theorem forall₂_filter (h : List.Forall₂ R l l') {p : α → Bool} {q : β → Bool} (hpq : ∀ a b, R a b → p a = q b) :
    List.Forall₂ R (l.filter p) (l'.filter q) := by
  induction h with
  | nil => exact .nil
  | @cons a b l l' hab _ ih =>
    rw [List.filter_cons, List.filter_cons, hpq a b hab]
    cases q b with
    | false => exact ih
    | true => exact .cons hab ih

/-- Each entry determines the one that corresponds to it. -/
theorem forall₂_iff_map_eq {f : α → β} (h : ∀ a b, R a b ↔ f a = b) : List.Forall₂ R l l' ↔ l.map f = l' := by
  rw [← List.forall₂_eq_eq_eq, List.forall₂_map_left_iff]
  exact ⟨fun hl => hl.imp fun a b hab => (h a b).1 hab, fun hl => hl.imp fun a b hab => (h a b).2 hab⟩

/-- Entries that correspond to the same ones. -/
theorem forall₂_span {S : α → γ → Prop} {l'' : List γ} (h : List.Forall₂ R l l') (h' : List.Forall₂ S l l'') :
    List.Forall₂ (fun b c => ∃ a, R a b ∧ S a c) l' l'' := by
  induction h generalizing l'' with
  | nil =>
    cases h'
    exact .nil
  | cons hab _ ih =>
    cases h' with
    | cons hac hrest => exact .cons ⟨_, hab, hac⟩ (ih hrest)

end Entries

/-! ## Lists without their repetitions -/

theorem nodup_eraseDups [BEq α] [LawfulBEq α] : (l : List α) → l.eraseDups.Nodup
  | [] => .nil
  | a :: l => by
    rw [List.eraseDups_cons, List.nodup_cons, List.mem_eraseDups]
    exact ⟨by simp, nodup_eraseDups (l.filter fun b => !b == a)⟩
termination_by l => l.length
decreasing_by exact Nat.lt_succ_of_le (List.length_filter_le _ _)

/-- An element is kept where it occurs first. -/
theorem eraseDups_concat [DecidableEq α] (l : List α) (a : α) :
    (l ++ [a]).eraseDups = if a ∈ l then l.eraseDups else l.eraseDups ++ [a] := by
  rw [List.eraseDups_append]
  by_cases ha : a ∈ l <;> simp [List.removeAll, List.eraseDups_cons, ha]

/-- What is kept stands in the order of first occurrence. -/
theorem pairwise_idxOf_eraseDups [DecidableEq α] (l : List α) :
    l.eraseDups.Pairwise fun a b => l.idxOf a < l.idxOf b := by
  induction l using List.reverseRecOn with
  | nil => exact .nil
  | append_singleton l a ih =>
    have hold : l.eraseDups.Pairwise fun b c => (l ++ [a]).idxOf b < (l ++ [a]).idxOf c := by
      refine ih.imp_of_mem fun {b c} hb hc hlt => ?_
      rwa [List.idxOf_append_of_mem (List.mem_eraseDups.1 hb), List.idxOf_append_of_mem (List.mem_eraseDups.1 hc)]
    rw [eraseDups_concat]
    split
    · exact hold
    · rename_i ha
      refine List.pairwise_append.2 ⟨hold, List.pairwise_singleton _ _, fun b hb c hc => ?_⟩
      have hb' := List.mem_eraseDups.1 hb
      rw [List.mem_singleton.1 hc, List.idxOf_append_of_mem hb', List.idxOf_append_of_notMem ha]
      exact Nat.lt_of_lt_of_le (List.idxOf_lt_length_iff.2 hb') (Nat.le_add_right _ _)

/-! ## Tables of keys and values -/

/-- A look-up finds every entry of a table that has each key once. -/
theorem lookup_eq_some_of_mem [BEq α] [LawfulBEq α] {entries : List (α × β)}
    (hn : (entries.map Prod.fst).Nodup) {a : α} {b : β} (h : (a, b) ∈ entries) : entries.lookup a = some b := by
  obtain ⟨l₁, l₂, rfl⟩ := List.append_of_mem h
  rw [List.map_append, List.nodup_append] at hn
  refine List.lookup_eq_some_iff.2 ⟨l₁, l₂, rfl, fun e he => ?_⟩
  rw [bne_iff_ne]
  exact (hn.2.2 e.1 (List.mem_map_of_mem he) a (by simp)).symm

/-- A look-up by what stands behind some of the keys. -/
theorem lookup_filterMap [BEq α] [LawfulBEq α] [BEq β] [LawfulBEq β] (key : α → Option β) {a : α}
    {b : β} (h : ∀ x, key x = some b ↔ x = a) (entries : List (α × γ)) :
    (entries.filterMap fun e => (key e.1).map (·, e.2)).lookup b = entries.lookup a := by
  induction entries with
  | nil => rfl
  | cons e entries ih =>
    obtain ⟨x, c⟩ := e
    rw [List.lookup_cons]
    by_cases hx : x = a
    · simp [hx, (h a).2 rfl]
    · have hne : (a == x) = false := by simp [Ne.symm hx]
      rw [hne]
      cases hk : key x with
      | none => simpa [hk] using ih
      | some b' =>
        have hb : (b == b') = false := by
          rw [beq_eq_false_iff_ne]
          rintro rfl
          exact hx ((h x).1 hk)
        simpa [hk, List.lookup_cons, hb] using ih

/-- Keys that stand for different ones are different. -/
theorem nodup_keys_filterMap {key : α → Option β} (hkey : ∀ a a' b, b ∈ key a → b ∈ key a' → a = a')
    {entries : List (α × γ)} (hn : (entries.map Prod.fst).Nodup) :
    ((entries.filterMap fun e => (key e.1).map (·, e.2)).map Prod.fst).Nodup := by
  have hkeys : (entries.filterMap fun e => (key e.1).map (·, e.2)).map Prod.fst =
      (entries.map Prod.fst).filterMap key := by
    rw [List.map_filterMap, List.filterMap_map]
    apply List.filterMap_congr
    intro e _
    simp [Option.map_map, Function.comp_def]
  rw [hkeys]
  exact hn.filterMap hkey

/-! ## Joining and growing -/

/-- An element of two joined lists stands in the second or in the first. -/
theorem append_eq_append_cons {u v x y : List α} {a : α} (h : u ++ v = x ++ a :: y) :
    (∃ z, x = u ++ z ∧ v = z ++ a :: y) ∨ ∃ z, u = x ++ a :: z ∧ y = z ++ v := by
  rcases List.append_eq_append_iff.1 h with ⟨z, rfl, rfl⟩ | ⟨z, rfl, hz⟩
  · exact .inl ⟨z, rfl, rfl⟩
  · rcases z with _ | ⟨b, z⟩
    · exact .inl ⟨[], by simp, hz.symm⟩
    · rw [List.cons_append, List.cons.injEq] at hz
      obtain ⟨rfl, rfl⟩ := hz
      exact .inr ⟨z, rfl, rfl⟩

/-- A cursor moves on in a list that grows at its end. -/
theorem forall_take_succ {P : α → Prop} {l l' : List α} {n : Nat} {a : α} (hl : l <+: l') (ha : l[n]? = some a)
    (hP : ∀ b ∈ l.take n, P b) (hPa : P a) : ∀ b ∈ l'.take (n + 1), P b := by
  obtain ⟨more, rfl⟩ := hl
  have hn := (List.getElem?_eq_some_iff.1 ha).1
  intro b hb
  rw [List.take_append_of_le_length (by omega), List.take_add_one, ha, Option.toList_some, List.mem_append,
    List.mem_singleton] at hb
  rcases hb with hb | rfl
  · exact hP b hb
  · exact hPa

theorem drop_eq_cons_of_getElem? {l l' : List α} {n : Nat} {a : α} (hl : l <+: l') (ha : l[n]? = some a) :
    l'.drop n = a :: l'.drop (n + 1) := by
  obtain ⟨more, rfl⟩ := hl
  obtain ⟨hn, rfl⟩ := List.getElem?_eq_some_iff.1 ha
  rw [List.drop_eq_getElem_cons (by simp only [List.length_append]; omega), List.getElem_append_left hn]

end ChartParser
