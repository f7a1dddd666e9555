import Floss.Exec
import Mathlib.Data.List.Forall2

/-!
# Walks over Forests

A forest is a list of labelled trees, in document order. A program that visits it depth
first sees a flat stream of tokens: those of a node's head, then the tokens of its
children, then those of its tail. Such a program often keeps one record per depth and
reuses it from node to node, so what it knows when it closes a node depends on more than
the node and its ancestors: it also depends on the nodes that stood at the same depth
before. `Forest.walk` therefore labels each token with the open nodes, and each open node
with the nodes of its own depth that precede it (`Open.earlier`).

`Forest.walk_rule` is the induction over all forests, once: from what a step program
does on the head and the tail of one node it derives what it does on a whole walk.

## Main definitions

* `Forest`, `Forest.tokens`, `Forest.layer`, `Forest.AllAt`;
* `Open`, `Forest.walk`, `Forest.postorder`;
* `runOut`: a step program run over a list of tokens, with one output per token.
-/

namespace Floss

/-- A list of labelled trees: a first tree, given by its root label and the forest of its
children, and the rest. -/
inductive Forest (α : Type)
  | nil
  | cons (node : α) (children rest : Forest α)
  deriving DecidableEq, Repr

/-- A node that is open during a walk, with the nodes of the same depth that precede it in
document order, nearest first. -/
structure Open (α : Type) where
  node : α
  earlier : List α
  deriving DecidableEq, Repr

namespace Forest

variable {α β : Type}

/-- The token stream of a walk: `pre` before and `post` after the children of a node. -/
def tokens (pre post : α → List β) : Forest α → List β
  | nil => []
  | cons a children rest =>
      pre a ++ (tokens pre post children ++ (post a ++ tokens pre post rest))

/-- The labels at depth `d`, last in document order first. -/
def layer : Forest α → ℕ → List α
  | nil, _ => []
  | cons a _ rest, 0 => layer rest 0 ++ [a]
  | cons _ children rest, d + 1 => layer rest (d + 1) ++ layer children d

/-- Every label satisfies `P` at its depth, the roots standing at depth `d`. -/
def AllAt (P : ℕ → α → Prop) : ℕ → Forest α → Prop
  | _, nil => True
  | d, cons a children rest => P d a ∧ AllAt P (d + 1) children ∧ AllAt P d rest

instance AllAt.decidable {P : ℕ → α → Prop} [∀ d a, Decidable (P d a)] :
    (d : ℕ) → (f : Forest α) → Decidable (AllAt P d f)
  | _, nil => inferInstanceAs (Decidable True)
  | d, cons a children rest =>
      have := AllAt.decidable (P := P) (d + 1) children
      have := AllAt.decidable (P := P) d rest
      inferInstanceAs (Decidable (P d a ∧ AllAt P (d + 1) children ∧ AllAt P d rest))

/-- A property of the labels may be weakened depth by depth. -/
theorem AllAt.mono {P Q : ℕ → α → Prop} {d : ℕ} {f : Forest α} (hf : f.AllAt P d)
    (h : ∀ e a, d ≤ e → P e a → Q e a) : f.AllAt Q d := by
  induction f generalizing d with
  | nil => trivial
  | cons a children rest ihc ihr =>
      obtain ⟨ha, hc, hr⟩ := hf
      exact ⟨h d a (Nat.le_refl d) ha, ihc hc fun e b he => h e b (by omega), ihr hr h⟩

/-- The walk with its labels: each token together with the node it belongs to and that
node's ancestors, innermost first. `anc` are the nodes open around the forest and
`hist d` the earlier nodes at depth `d` below them. -/
def walk (pre post : α → List β) :
    Forest α → List (Open α) → (ℕ → List α) → List (β × List (Open α))
  | nil, _, _ => []
  | cons a children rest, anc, hist =>
      let ctx := ⟨a, hist 0⟩ :: anc
      (pre a).map (·, ctx) ++
        (walk pre post children ctx (fun d => hist (d + 1)) ++
          ((post a).map (·, ctx) ++
            walk pre post rest anc fun d => (cons a children nil).layer d ++ hist d))

/-- Forgetting the labels of a walk gives its tokens. -/
theorem map_fst_walk (pre post : α → List β) (f : Forest α) (anc : List (Open α))
    (hist : ℕ → List α) : (f.walk pre post anc hist).map Prod.fst = f.tokens pre post := by
  induction f generalizing anc hist with
  | nil => rfl
  | cons a children rest ihc ihr =>
      simp only [walk, tokens, List.map_append, List.map_map, ihc, ihr]
      simp [Function.comp_def]

/-- The labels in the order in which a walk leaves them. -/
def postorder : Forest α → List α
  | nil => []
  | cons a children rest => postorder children ++ a :: postorder rest

/-- A property of the labels may be weakened label by label. -/
theorem AllAt.imp_of_mem {P Q : ℕ → α → Prop} {d : ℕ} {f : Forest α} (hf : f.AllAt P d)
    (h : ∀ e, ∀ a ∈ f.postorder, P e a → Q e a) : f.AllAt Q d := by
  induction f generalizing d with
  | nil => trivial
  | cons a children rest ihc ihr =>
      obtain ⟨ha, hc, hr⟩ := hf
      exact ⟨h d a (by simp [postorder]) ha,
        ihc hc fun e b hb => h e b (by simp [postorder, hb]),
        ihr hr fun e b hb => h e b (by simp [postorder, hb])⟩

/-- What a walk collects at the tail of each node, it collects in postorder. -/
theorem flatMap_walk {γ : Type} {pre post : α → List β}
    {g : β × List (Open α) → List γ} {G : α → List γ}
    (hpre : ∀ a h anc, ((pre a).map (·, ⟨a, h⟩ :: anc)).flatMap g = [])
    (hpost : ∀ a h anc, ((post a).map (·, ⟨a, h⟩ :: anc)).flatMap g = G a)
    (f : Forest α) (anc : List (Open α)) (hist : ℕ → List α) :
    (f.walk pre post anc hist).flatMap g = f.postorder.flatMap G := by
  induction f generalizing anc hist with
  | nil => rfl
  | cons a children rest ihc ihr =>
      simp only [walk, postorder, List.flatMap_append, List.flatMap_cons, hpre, hpost, ihc, ihr,
        List.nil_append]

end Forest

/-! ### Step programs -/

section Run

variable {κ γ σ : Type}

/-- Run a step program over a list of tokens, collecting one output per token. -/
def runOut (step : σ → κ → Exec (γ × σ)) : List κ → σ → Exec (List γ × σ)
  | [], s => .ok ([], s)
  | k :: ks, s => do
      let (o, s) ← step s k
      let (os, s) ← runOut step ks s
      return (o :: os, s)

variable {step : σ → κ → Exec (γ × σ)}

theorem runOut_cons_of {k : κ} {ks : List κ} {s s₁ s₂ : σ} {o : γ} {os : List γ}
    (h₁ : step s k = .ok (o, s₁)) (h₂ : runOut step ks s₁ = .ok (os, s₂)) :
    runOut step (k :: ks) s = .ok (o :: os, s₂) := by
  simp [runOut, h₁, h₂]

theorem runOut_append_of {k₁ k₂ : List κ} {s s₁ s₂ : σ} {o₁ o₂ : List γ}
    (h₁ : runOut step k₁ s = .ok (o₁, s₁)) (h₂ : runOut step k₂ s₁ = .ok (o₂, s₂)) :
    runOut step (k₁ ++ k₂) s = .ok (o₁ ++ o₂, s₂) := by
  induction k₁ generalizing s o₁ with
  | nil =>
      obtain ⟨rfl, rfl⟩ : [] = o₁ ∧ s = s₁ := by simpa [runOut] using h₁
      simpa using h₂
  | cons k ks ih =>
      simp only [runOut, bind_eq_ok, pure_eq_ok, Except.ok.injEq, Prod.mk.injEq,
        Prod.exists] at h₁
      obtain ⟨o, s', hstep, os, s'', hrun, rfl, rfl⟩ := h₁
      exact runOut_cons_of hstep (ih hrun)

end Run

/-- A list related to a concatenation is a concatenation. -/
theorem forall₂_append_inv {α β : Type} {R : α → β → Prop} {l₁ l₂ : List α} {l : List β}
    (h : List.Forall₂ R (l₁ ++ l₂) l) :
    ∃ r₁ r₂, l = r₁ ++ r₂ ∧ List.Forall₂ R l₁ r₁ ∧ List.Forall₂ R l₂ r₂ := by
  refine ⟨l.take l₁.length, l.drop l₁.length, (List.take_append_drop _ _).symm, ?_, ?_⟩
  · exact (List.forall₂_take_append l l₁ l₂ h.flip).flip
  · exact (List.forall₂_drop_append l l₁ l₂ h.flip).flip

/-- **The walk rule.** `Inv anc hist s` relates the open nodes and the earlier nodes per
depth to the state of a step program that reads the walk's tokens in some concrete form
(`Shown`). If the program takes the head and the tail of every node from invariant to
invariant with outputs that `R` allows, it does so on every walk. -/
theorem Forest.walk_rule {α β κ γ σ : Type} {pre post : α → List β} {P : ℕ → α → Prop}
    (Shown : β → κ → Prop) (step : σ → κ → Exec (γ × σ))
    (Inv : List (Open α) → (ℕ → List α) → σ → Prop) (R : β × List (Open α) → γ → Prop)
    (hpre : ∀ a anc hist s ks, P anc.length a → Inv anc hist s →
      List.Forall₂ Shown (pre a) ks →
      ∃ os s', runOut step ks s = .ok (os, s') ∧
        List.Forall₂ R ((pre a).map (·, ⟨a, hist 0⟩ :: anc)) os ∧
        Inv (⟨a, hist 0⟩ :: anc) (fun d => hist (d + 1)) s')
    (hpost : ∀ a h anc hist s ks, P anc.length a → Inv (⟨a, h⟩ :: anc) hist s →
      List.Forall₂ Shown (post a) ks →
      ∃ os s', runOut step ks s = .ok (os, s') ∧
        List.Forall₂ R ((post a).map (·, ⟨a, h⟩ :: anc)) os ∧
        Inv anc (fun | 0 => a :: h | d + 1 => hist d) s')
    (f : Forest α) {anc : List (Open α)} {hist : ℕ → List α} {s : σ} {ks : List κ}
    (hinv : Inv anc hist s) (hf : f.AllAt P anc.length)
    (hks : List.Forall₂ Shown (f.tokens pre post) ks) :
    ∃ os s', runOut step ks s = .ok (os, s') ∧
      List.Forall₂ R (f.walk pre post anc hist) os ∧
      Inv anc (fun d => f.layer d ++ hist d) s' := by
  induction f generalizing anc hist s ks with
  | nil =>
      obtain rfl : ks = [] := by simpa [Forest.tokens] using hks
      exact ⟨[], s, rfl, by simp [Forest.walk], by simpa [Forest.layer] using hinv⟩
  | cons a children rest ihc ihr =>
      obtain ⟨ha, hc, hr⟩ := hf
      obtain ⟨k₁, ks, rfl, hk₁, hks⟩ := forall₂_append_inv hks
      obtain ⟨k₂, ks, rfl, hk₂, hks⟩ := forall₂_append_inv hks
      obtain ⟨k₃, k₄, rfl, hk₃, hk₄⟩ := forall₂_append_inv hks
      obtain ⟨o₁, s₁, hrun₁, hR₁, hinv₁⟩ := hpre a anc hist s k₁ ha hinv hk₁
      obtain ⟨o₂, s₂, hrun₂, hR₂, hinv₂⟩ :=
        ihc hinv₁ (by simpa using hc) hk₂
      obtain ⟨o₃, s₃, hrun₃, hR₃, hinv₃⟩ := hpost a (hist 0) anc _ s₂ k₃ ha hinv₂ hk₃
      -- closing the node adds its own layers to the history
      have hhist : (fun | 0 => a :: hist 0 | d + 1 => children.layer d ++ hist (d + 1)) =
          fun d => (Forest.cons a children nil).layer d ++ hist d := by
        funext d
        cases d <;> simp [Forest.layer]
      rw [hhist] at hinv₃
      obtain ⟨o₄, s₄, hrun₄, hR₄, hinv₄⟩ := ihr hinv₃ hr hk₄
      refine ⟨o₁ ++ (o₂ ++ (o₃ ++ o₄)), s₄, ?_, ?_, ?_⟩
      · exact runOut_append_of hrun₁ (runOut_append_of hrun₂ (runOut_append_of hrun₃ hrun₄))
      · exact List.rel_append hR₁ (List.rel_append hR₂ (List.rel_append hR₃ hR₄))
      · have hlayer : (fun d => (Forest.cons a children rest).layer d ++ hist d) =
            fun d => rest.layer d ++ ((Forest.cons a children nil).layer d ++ hist d) := by
          funext d
          cases d <;> simp [Forest.layer]
        rw [hlayer]
        exact hinv₄

end Floss
