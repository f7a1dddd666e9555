import Mathlib.Data.Set.Finite.Basic
import Mathlib.Data.Fintype.Pigeonhole
import Mathlib.Logic.Relation

/-!
# Chains of Links

A loop that follows links, from one element to the next, until there is none. This module is
about an arbitrary partial map `next`.

* `Follows next`: the links, one by one;
* `Ends next a`: the chain from `a` comes to an element without a link;
* `ends_iff_no_cycle`: where only finitely many elements have a link, a chain ends exactly
  when it does not run into a cycle.
-/

namespace Floss

section Chains

open Relation

variable {α : Type*} {next : α → Option α} {a b c : α}

/-- There is a link from `a` to `b`. -/
def Follows (next : α → Option α) (a b : α) : Prop := next a = some b

/-- The chain from `a` comes to an end. -/
def Ends (next : α → Option α) (a : α) : Prop :=
  ∃ b, ReflTransGen (Follows next) a b ∧ next b = none

/-- An element has at most one link. -/
theorem Follows.unique (hb : Follows next a b) (hc : Follows next a c) : b = c :=
  Option.some.inj (hb.symm.trans hc)

/-- Every element of a chain that ends has the same end. -/
theorem reflTransGen_end (hc : ReflTransGen (Follows next) a c) (hnone : next c = none)
    (hb : ReflTransGen (Follows next) a b) : ReflTransGen (Follows next) b c := by
  induction hb using ReflTransGen.head_induction_on with
  | refl => exact hc
  | head hstep _ ih =>
      rcases hc.cases_head with rfl | ⟨d, hd, hdc⟩
      · rw [Follows, hnone] at hstep
        cases hstep
      · rw [hstep.unique hd] at ih
        exact ih hdc

/-- The elements of a chain that ends are not on a cycle. -/
theorem not_cycle_of_end (hc : ReflTransGen (Follows next) b c) (hnone : next c = none) :
    ¬ TransGen (Follows next) b b := by
  induction hc using ReflTransGen.head_induction_on with
  | refl =>
      intro hcycle
      obtain ⟨d, hd, -⟩ := TransGen.head'_iff.1 hcycle
      rw [Follows, hnone] at hd
      cases hd
  | head hstep _ ih =>
      intro hcycle
      obtain ⟨d, hd, hback⟩ := TransGen.head'_iff.1 hcycle
      rw [← hstep.unique hd] at hback
      exact ih (TransGen.tail' hback hstep)

/-- A chain without an end, element by element. -/
def walkOn (next : α → Option α) (a : α) : ℕ → α
  | 0 => a
  | n + 1 => (next (walkOn next a n)).getD (walkOn next a n)

/-- The elements of a chain without an end are linked. -/
theorem follows_walkOn (h : ¬ Ends next a) (n : ℕ) :
    Follows next (walkOn next a n) (walkOn next a (n + 1)) := by
  have hreach : ∀ n, ReflTransGen (Follows next) a (walkOn next a n) := by
    intro n
    induction n with
    | zero => exact .refl
    | succ n ih =>
        cases hn : next (walkOn next a n) with
        | none => exact absurd ⟨_, ih, hn⟩ h
        | some b => exact ih.tail (by rw [Follows, walkOn, hn, Option.getD_some])
  cases hn : next (walkOn next a n) with
  | none => exact absurd ⟨_, hreach n, hn⟩ h
  | some b => rw [Follows, walkOn, hn, Option.getD_some]

/-- Going on in a chain without an end. -/
theorem transGen_walkOn (h : ¬ Ends next a) {i j : ℕ} (hij : i < j) :
    TransGen (Follows next) (walkOn next a i) (walkOn next a j) := by
  induction j, hij using Nat.le_induction with
  | base => exact .single (follows_walkOn h i)
  | succ j _ ih => exact ih.tail (follows_walkOn h j)

/-- **When a chain ends**: where only finitely many elements have a link, exactly when it
does not run into a cycle. -/
theorem ends_iff_no_cycle {s : Set α} (hfin : s.Finite) (hs : ∀ a b, Follows next a b → a ∈ s)
    (a : α) :
    Ends next a ↔
      ∀ b, ReflTransGen (Follows next) a b → ¬ TransGen (Follows next) b b := by
  constructor
  · rintro ⟨c, hc, hnone⟩ b hb
    exact not_cycle_of_end (reflTransGen_end hc hnone hb) hnone
  · intro hacyclic
    by_contra hends
    -- infinitely many elements, all with a link: two of them are the same
    have : Finite s := hfin
    obtain ⟨i, j, hne, heq⟩ := Finite.exists_ne_map_eq_of_infinite
      fun n : ℕ => (⟨walkOn next a n, hs _ _ (follows_walkOn hends n)⟩ : s)
    have heq : walkOn next a i = walkOn next a j := congrArg Subtype.val heq
    have hreach : ∀ n, ReflTransGen (Follows next) a (walkOn next a n) := by
      intro n
      rcases Nat.eq_zero_or_pos n with rfl | hn
      · exact .refl
      · exact (transGen_walkOn hends hn).to_reflTransGen
    rcases Nat.lt_or_gt_of_ne hne with hij | hij
    · have hcycle := transGen_walkOn hends hij
      rw [← heq] at hcycle
      exact hacyclic _ (hreach i) hcycle
    · have hcycle := transGen_walkOn hends hij
      rw [heq] at hcycle
      exact hacyclic _ (hreach j) hcycle

end Chains

end Floss
