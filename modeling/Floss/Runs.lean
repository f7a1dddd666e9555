import Mathlib.Data.List.Basic

/-!
# Labelled Runs and Their Histories

A component that other parties interfere with (a lock taken by several cores, a driver
whose device moves on its own) is a step relation whose steps carry a label. `Run step s
tr t` says that the steps labelled `tr`, oldest first, lead from `s` to `t`; every
interleaving of the parties is one such list of labels.

* `Run.invariant`: a relation between the history and the state that holds at the start
  and survives one step holds at the end of every run;
* `Since p q tr`: the history `tr` holds an event with `p` after which there is none
  with `q`;
* `since_snoc`: how one more event changes this, the form in which invariants use it.
-/

namespace Floss

variable {σ l : Type*}

/-- The steps labelled `tr`, **oldest first**, lead from `s` to the last state. -/
inductive Run (step : σ → l → σ → Prop) (s : σ) : List l → σ → Prop
  | refl : Run step s [] s
  | snoc {tr : List l} {t u : σ} {a : l} (run : Run step s tr t) (last : step t a u) :
      Run step s (tr ++ [a]) u

/-- **The invariant rule**: what holds of the empty history and the first state, and
passes from each history and state to the next, holds of every run. -/
theorem Run.invariant {step : σ → l → σ → Prop} {s t : σ} {tr : List l}
    (Inv : List l → σ → Prop) (start : Inv [] s)
    (preserved : ∀ tr t a u, Inv tr t → step t a u → Inv (tr ++ [a]) u)
    (run : Run step s tr t) : Inv tr t := by
  induction run with
  | refl => exact start
  | snoc _ last ih => exact preserved _ _ _ _ ih last

/-- Runs compose. -/
theorem Run.trans {step : σ → l → σ → Prop} {s t u : σ} {tr tr' : List l}
    (first : Run step s tr t) (second : Run step t tr' u) : Run step s (tr ++ tr') u := by
  induction second with
  | refl => rwa [List.append_nil]
  | snoc _ last ih =>
      rw [← List.append_assoc]
      exact ih.snoc last

/-- The history holds an event with `p` after which there is none with `q`. -/
def Since (p q : l → Prop) (tr : List l) : Prop :=
  ∃ pre a post, tr = pre ++ a :: post ∧ p a ∧ ∀ b ∈ post, ¬ q b

/-- Nothing has happened yet. -/
@[simp] theorem not_since_nil (p q : l → Prop) : ¬ Since p q [] := by
  rintro ⟨pre, a, post, h, -⟩
  simp at h

/-- **One more event**: it is the event waited for, or the old one still counts and the
new event does not end it. -/
theorem since_snoc {p q : l → Prop} {tr : List l} {a : l} :
    Since p q (tr ++ [a]) ↔ p a ∨ (Since p q tr ∧ ¬ q a) := by
  constructor
  · rintro ⟨pre, b, post, h, hb, hpost⟩
    -- the event is the last one, or it lies in `tr` and the last one lies in `post`
    rcases List.eq_nil_or_concat post with rfl | ⟨post', c, rfl⟩
    · obtain ⟨-, hab⟩ := List.append_inj' h rfl
      rw [List.cons.injEq] at hab
      exact .inl (hab.1 ▸ hb)
    · rw [List.concat_eq_append, ← List.cons_append, ← List.append_assoc] at h
      obtain ⟨rfl, hac⟩ := List.append_inj' h rfl
      rw [List.cons.injEq] at hac
      refine .inr ⟨⟨pre, b, post', rfl, hb, fun d hd => hpost d (by simp [hd])⟩, ?_⟩
      rw [hac.1]
      exact hpost c (by simp)
  · rintro (ha | ⟨⟨pre, b, post, rfl, hb, hpost⟩, ha⟩)
    · exact ⟨tr, a, [], rfl, ha, by simp⟩
    · refine ⟨pre, b, post ++ [a], by simp, hb, ?_⟩
      intro c hc
      rcases List.mem_append.1 hc with hc | hc
      · exact hpost c hc
      · rw [List.mem_singleton.1 hc]
        exact ha

end Floss
