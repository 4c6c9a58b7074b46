import ChartParser.Proofs.Grammar.Yield
import Mathlib.Logic.Relation
import Mathlib.Tactic.ByContra
/-!
# The nullable non-terminals are those that derive the empty word

Nullable non-terminals are added to those that are known as long as some production
shows one. In whatever order this is done, it comes to an end (`adds_wellFounded`), and
then exactly the non-terminals that derive the empty word are known
(`mem_iff_of_saturated`). Adding one at a time and going through all productions pass
by pass are two such orders.
-/
namespace ChartParser

variable {productions productions' : List Production} {known known' : List NonTerminal} {A : NonTerminal}

/-! ## Additions -/

/-- One production adds its left-hand side to what is known. -/
inductive Adds (productions : List Production) (known : List NonTerminal) : List NonTerminal → Prop
  | add {p : Production} (hp : p ∈ productions) (h : p.addsNullable known = true) :
      Adds productions known (p.lhs :: known)

/-- No production adds anything to what is known. -/
def Saturated (productions : List Production) (known : List NonTerminal) : Prop :=
  ∀ p ∈ productions, p.addsNullable known = false

theorem addsNullable_iff {p : Production} : p.addsNullable known = true ↔
    p.lhs ∉ known ∧ ∀ s ∈ p.rhs, s.nullableAmong known = true := by
  simp [Production.addsNullable]

theorem saturated_iff : Saturated productions known ↔ ∀ known', ¬Adds productions known known' := by
  constructor
  · rintro h _ ⟨hp, hadds⟩
    rw [h _ hp] at hadds
    cases hadds
  · intro h p hp
    by_contra hadds
    exact h _ (.add hp (by simpa using hadds))

theorem Symbol.nullableAmong_iff {s : Symbol} : s.nullableAmong known = true ↔ ∃ B ∈ known, s = .nonTerminal B := by
  cases s <;> simp [nullableAmong]

theorem Adds.unknownIn_lt (h : Adds productions known known') :
    (unknownIn productions known').length < (unknownIn productions known).length := by
  obtain ⟨hp, h⟩ := h
  exact unknownIn_cons_lt hp (addsNullable_iff.1 h).1

/-- Additions come to an end. -/
theorem adds_wellFounded (productions : List Production) :
    WellFounded fun known' known => Adds productions known known' :=
  Subrelation.wf Adds.unknownIn_lt (measure fun known => (unknownIn productions known).length).wf

theorem unknownIn_le_of_adds (h : Relation.ReflTransGen (Adds productions) known known') :
    (unknownIn productions known').length ≤ (unknownIn productions known).length := by
  induction h with
  | refl => exact Nat.le_refl _
  | tail _ hadds ih => exact Nat.le_trans (Nat.le_of_lt hadds.unknownIn_lt) ih

/-! ## What is known in the end -/

/-- More productions derive no less. -/
theorem Derives.mono {u v : List Letter} (h : Derives productions u v) (hsub : productions ⊆ productions') :
    Derives productions' u v := by
  induction h with
  | refl => exact .refl
  | step hp _ ih => exact .step (hsub hp) ih

theorem derives_nil_of_forall {x : List Letter} (h : ∀ a ∈ x, Derives productions [a] []) :
    Derives productions x [] := by
  induction x with
  | nil => exact .refl
  | cons a x ih => exact (h a (by simp)).append (ih fun b hb => h b (by simp [hb]))

/-- A production of non-terminals that derive the empty word does so itself. -/
theorem derives_nil_of_production {p : Production} (hp : p ∈ productions)
    (h : ∀ s ∈ p.rhs, ∃ B, s = .nonTerminal B ∧ Derives productions [.nonTerminal B] []) :
    Derives productions [.nonTerminal p.lhs] [] := by
  refine (Derives.of_mem hp).trans (derives_nil_of_forall fun a ha => ?_)
  obtain ⟨s, hs, rfl⟩ := List.mem_map.1 ha
  obtain ⟨B, rfl, hB⟩ := h s hs
  exact hB

/-- Additions are right as long as what they build on is. -/
theorem Adds.sound (h : Adds productions known known')
    (hk : ∀ B ∈ known, Derives productions [.nonTerminal B] []) :
    ∀ B ∈ known', Derives productions [.nonTerminal B] [] := by
  obtain ⟨hp, h⟩ := h
  intro B hB
  rcases List.mem_cons.1 hB with rfl | hB
  · refine derives_nil_of_production hp fun s hs => ?_
    obtain ⟨B, hB, rfl⟩ := Symbol.nullableAmong_iff.1 ((addsNullable_iff.1 h).2 s hs)
    exact ⟨B, rfl, hk B hB⟩
  · exact hk B hB

/-- Where nothing can be added, all letters that yield the empty word are known. -/
theorem Saturated.known_of_yields (h : Saturated productions known) {x : List Letter} {w : List TokenType}
    (hx : Yields productions x w) (hw : w = []) : ∀ a ∈ x, ∃ B ∈ known, a = .nonTerminal B := by
  induction hx with
  | nil => simp
  | token => cases hw
  | @nonTerminal p rest u v hp _ _ ihr ih =>
    obtain ⟨rfl, rfl⟩ := List.append_eq_nil_iff.1 hw
    have hlhs : p.lhs ∈ known := by
      by_contra hno
      have hall : ∀ s ∈ p.rhs, s.nullableAmong known = true := by
        intro s hs
        obtain ⟨B, hB, hletter⟩ := ihr rfl s.letter (List.mem_map_of_mem hs)
        exact Symbol.nullableAmong_iff.2 ⟨B, hB, Symbol.letter_eq_nonTerminal.1 hletter⟩
      have hadds := addsNullable_iff.2 ⟨hno, hall⟩
      rw [h p hp] at hadds
      cases hadds
    intro a ha
    rcases List.mem_cons.1 ha with rfl | ha
    · exact ⟨p.lhs, hlhs, rfl⟩
    · exact ih rfl a ha

/-- Whatever was added in whatever order: when nothing can be added any more, the
non-terminals that derive the empty word are known, and no others. -/
theorem mem_iff_of_saturated (hadds : Relation.ReflTransGen (Adds productions) [] known)
    (h : Saturated productions known) : A ∈ known ↔ Derives productions [.nonTerminal A] [] := by
  constructor
  · have hsound : ∀ B ∈ known, Derives productions [.nonTerminal B] [] := by
      clear h
      induction hadds with
      | refl => simp
      | tail _ hadds ih => exact hadds.sound ih
    exact hsound A
  · intro hd
    have hy : Yields productions [.nonTerminal A] [] := derives_iff_yields.1 hd
    obtain ⟨B, hB, heq⟩ := h.known_of_yields hy rfl _ List.mem_cons_self
    cases heq
    exact hB

/-! ## One at a time -/

theorem nullableFrom_adds (productions : List Production) (known : List NonTerminal) :
    Relation.ReflTransGen (Adds productions) known (nullableFrom productions known) := by
  fun_induction nullableFrom productions known with
  | case1 => exact .refl
  | case2 known p h ih => exact .head (.add (List.mem_of_find?_eq_some h) (List.find?_some h)) ih

theorem nullableFrom_saturated (productions : List Production) (known : List NonTerminal) :
    Saturated productions (nullableFrom productions known) := by
  fun_induction nullableFrom productions known with
  | case1 known h =>
    intro p hp
    simpa using List.find?_eq_none.1 h p hp
  | case2 known p h ih => exact ih

theorem mem_nullables_iff : A ∈ nullables productions ↔ Derives productions [.nonTerminal A] [] :=
  mem_iff_of_saturated (nullableFrom_adds productions []) (nullableFrom_saturated productions [])

/-! ## Pass by pass -/

/-- One pass over the productions, in their order. Each of them builds on what those
before it have added. -/
def nullablePass (productions : List Production) (known : List NonTerminal) : List NonTerminal :=
  productions.foldl (fun known p => if p.addsNullable known then p.lhs :: known else known) known

theorem nullablePass_adds {ps : List Production} (hps : ps ⊆ productions) (known : List NonTerminal) :
    Relation.ReflTransGen (Adds productions) known (nullablePass ps known) := by
  induction ps generalizing known with
  | nil => exact .refl
  | cons p ps ih =>
    obtain ⟨hp, hps⟩ := List.cons_subset.1 hps
    simp only [nullablePass, List.foldl_cons] at ih ⊢
    split
    · rename_i h
      exact .head (.add hp h) (ih hps _)
    · exact ih hps known

theorem suffix_nullablePass (productions : List Production) (known : List NonTerminal) :
    known <:+ nullablePass productions known := by
  induction productions generalizing known with
  | nil => exact List.suffix_refl known
  | cons p ps ih =>
    simp only [nullablePass, List.foldl_cons] at ih ⊢
    split
    · exact (List.suffix_cons _ _).trans (ih _)
    · exact ih known

/-- Only where nothing can be added a pass adds nothing. -/
theorem saturated_of_nullablePass (h : nullablePass productions known = known) : Saturated productions known := by
  induction productions with
  | nil => simp [Saturated]
  | cons p ps ih =>
    simp only [nullablePass, List.foldl_cons] at h ih
    by_cases hp : p.addsNullable known = true
    · -- What the production adds stays, so the pass would have added something.
      rw [if_pos hp] at h
      have hlen := (suffix_nullablePass ps (p.lhs :: known)).length_le
      rw [nullablePass, h, List.length_cons] at hlen
      omega
    · rw [if_neg hp] at h
      intro q hq
      rcases List.mem_cons.1 hq with rfl | hq
      · simpa using hp
      · exact ih h q hq

theorem unknownIn_nullablePass_lt (h : nullablePass productions known ≠ known) :
    (unknownIn productions (nullablePass productions known)).length < (unknownIn productions known).length := by
  rcases (nullablePass_adds (List.Subset.refl productions) known).cases_head with heq | ⟨next, hadds, hmore⟩
  · exact absurd heq.symm h
  · exact Nat.lt_of_le_of_lt (unknownIn_le_of_adds hmore) hadds.unknownIn_lt

/-- Passes over all productions until one of them adds nothing. -/
def nullablesByPasses (productions : List Production) (known : List NonTerminal) : List NonTerminal :=
  if _h : nullablePass productions known = known then known
  else nullablesByPasses productions (nullablePass productions known)
termination_by (unknownIn productions known).length
decreasing_by exact unknownIn_nullablePass_lt _h

theorem nullablesByPasses_adds (productions : List Production) (known : List NonTerminal) :
    Relation.ReflTransGen (Adds productions) known (nullablesByPasses productions known) := by
  fun_induction nullablesByPasses productions known with
  | case1 => exact .refl
  | case2 known _ ih => exact (nullablePass_adds (List.Subset.refl productions) known).trans ih

theorem nullablesByPasses_saturated (productions : List Production) (known : List NonTerminal) :
    Saturated productions (nullablesByPasses productions known) := by
  fun_induction nullablesByPasses productions known with
  | case1 known h => exact saturated_of_nullablePass h
  | case2 known _ ih => exact ih

/-! ## Exactness -/

/-- For every list of productions, whether they make up a grammar or not, the nullable
non-terminals are those that derive the empty word. The order of the productions makes
no difference, and neither does the order in which they are gone through: additions
always come to an end, and the end is the same, also for passes over all productions.
So a grammar calls a non-terminal nullable exactly if it derives the empty word. -/
theorem nullables_exact (productions : List Production) :
    (∀ A, A ∈ nullables productions ↔ Derives productions [.nonTerminal A] []) ∧
    (∀ productions', productions.Perm productions' → ∀ A, A ∈ nullables productions' ↔ A ∈ nullables productions) ∧
    (WellFounded fun known' known => Adds productions known known') ∧
    (∀ known, Relation.ReflTransGen (Adds productions) [] known → (∀ known', ¬Adds productions known known') →
      ∀ A, A ∈ known ↔ A ∈ nullables productions) ∧
    (∀ A, A ∈ nullablesByPasses productions [] ↔ A ∈ nullables productions) ∧
    ∀ g : Grammar, g.productions = productions → ∀ A,
      g.isNullable A = true ↔ Derives productions [.nonTerminal A] [] := by
  refine ⟨fun A => mem_nullables_iff, fun productions' hperm A => ?_, adds_wellFounded productions,
    fun known hadds hend A => ?_, fun A => ?_, ?_⟩
  · rw [mem_nullables_iff, mem_nullables_iff]
    exact ⟨fun h => h.mono fun p hp => hperm.mem_iff.2 hp, fun h => h.mono fun p hp => hperm.mem_iff.1 hp⟩
  · rw [mem_nullables_iff]
    exact mem_iff_of_saturated hadds (saturated_iff.2 hend)
  · rw [mem_nullables_iff]
    exact mem_iff_of_saturated (nullablesByPasses_adds productions []) (nullablesByPasses_saturated productions [])
  · rintro g rfl A
    rw [Grammar.isNullable_iff, mem_nullables_iff]

end ChartParser
