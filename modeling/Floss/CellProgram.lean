import Mathlib.Data.List.Induction
import Mathlib.Logic.Function.Basic

/-!
# Programs over Cells

A program that loads cells and stores into them, and may stop with a fault. What it does next
may depend on all that it has loaded, so a program is a tree that branches over the values of
its loads. Run on the contents of all cells it ends with a result and new contents, and it
leaves a trace of its accesses.

* `CellProgram V ε α`: programs over cells `i` that hold values of type `V i`. They are a
  monad, and computations that only may stop are lifted into it;
* `run`, `trace`: the end of a program, and its accesses in their order;
* `Covered w tr`: every load of the trace is of a cell in `w` or comes after a store into it;
* `run_of_agree`: a program does not depend on cells that its loads do not name;
  `unstored`: it changes only cells that it stores into;
* `Computes`: a program that stores nothing, and what it computes; `LoadsIn`: where its loads
  are;
* `Realizes`: a program that stores, and the computation that it stands for.
  `Realizes.footprint` says what that depends on and what it changes;
* `WritesFirst`: a program that loads only what is written, and how it ends.
  `writesFirst_foldlM` is the rule for loops.
-/

namespace Floss

/-- A program over cells: it has ended, it loads a cell, or it stores into one. -/
inductive CellProgram {ι : Type} (V : ι → Type) (ε α : Type)
  | done (r : Except ε α)
  | load (i : ι) (next : V i → CellProgram V ε α)
  | store (i : ι) (v : V i) (next : CellProgram V ε α)

inductive CellAccess (ι : Type)
  | load (i : ι)
  | store (i : ι)
  deriving DecidableEq, Repr

namespace CellProgram

variable {ι ε α β σ : Type} {V : ι → Type}

protected def bind : CellProgram V ε α → (α → CellProgram V ε β) → CellProgram V ε β
  | .done (.ok a), f => f a
  | .done (.error e), _ => .done (.error e)
  | .load i next, f => .load i fun v => (next v).bind f
  | .store i v next, f => .store i v (next.bind f)

instance : Monad (CellProgram V ε) where
  pure a := .done (.ok a)
  bind := CellProgram.bind

instance : MonadLift (Except ε) (CellProgram V ε) where
  monadLift := .done

instance : LawfulMonad (CellProgram V ε) := by
  refine LawfulMonad.mk' _ (fun p => ?_) (fun _ _ => rfl) (fun p f g => ?_)
  · induction p with
    | done r => cases r <;> rfl
    | load i next ih => exact congrArg (CellProgram.load i) (funext ih)
    | store i v next ih => exact congrArg (CellProgram.store i v) ih
  · induction p with
    | done r => cases r <;> rfl
    | load i next ih => exact congrArg (CellProgram.load i) (funext ih)
    | store i v next ih => exact congrArg (CellProgram.store i v) ih

/-- Load a cell. -/
def get (i : ι) : CellProgram V ε (V i) := .load i fun v => .done (.ok v)

/-- Store into a cell. -/
def set (i : ι) (v : V i) : CellProgram V ε Unit := .store i v (.done (.ok ()))

variable [DecidableEq ι]

/-- **The end of a program**: its result and the contents of the cells. -/
def run : CellProgram V ε α → (∀ i, V i) → Except ε (α × ∀ i, V i)
  | .done (.ok a), cells => .ok (a, cells)
  | .done (.error e), _ => .error e
  | .load i next, cells => (next (cells i)).run cells
  | .store i v next, cells => next.run (Function.update cells i v)

/-- **The accesses of a program**, up to its end or the fault that stops it. -/
def trace : CellProgram V ε α → (∀ i, V i) → List (CellAccess ι)
  | .done _, _ => []
  | .load i next, cells => .load i :: (next (cells i)).trace cells
  | .store i v next, cells => .store i :: next.trace (Function.update cells i v)

/-! ### Steps -/

section Steps

variable {p : CellProgram V ε α} {f : α → CellProgram V ε β} {cells cells' : ∀ i, V i} {a : α}
  {e : ε}

@[simp] theorem run_pure : (pure a : CellProgram V ε α).run cells = .ok (a, cells) := rfl

@[simp] theorem trace_pure : (pure a : CellProgram V ε α).trace cells = [] := rfl

@[simp] theorem run_lift (x : Except ε α) :
    (liftM x : CellProgram V ε α).run cells = x.map (·, cells) := by
  cases x <;> rfl

@[simp] theorem trace_lift (x : Except ε α) :
    (liftM x : CellProgram V ε α).trace cells = [] := rfl

@[simp] theorem trace_get (i : ι) :
    (get i : CellProgram V ε (V i)).trace cells = [.load i] := rfl

/-- A sequence runs its parts in turn. -/
theorem run_bind : (p >>= f).run cells = p.run cells >>= fun r => (f r.1).run r.2 := by
  induction p generalizing cells with
  | done r => cases r <;> rfl
  | load i next ih => exact ih (cells i)
  | store i v next ih => exact ih

theorem run_bind_of_ok (h : p.run cells = .ok (a, cells')) :
    (p >>= f).run cells = (f a).run cells' := by
  rw [run_bind, h]
  rfl

theorem trace_bind_of_ok (h : p.run cells = .ok (a, cells')) :
    (p >>= f).trace cells = p.trace cells ++ (f a).trace cells' := by
  induction p generalizing cells with
  | done r =>
      cases r with
      | error e => cases h
      | ok a' =>
          obtain ⟨rfl, rfl⟩ := Prod.mk.inj (Except.ok.inj h)
          rfl
  | load i next ih => exact congrArg (CellAccess.load i :: ·) (ih (cells i) h)
  | store i v next ih => exact congrArg (CellAccess.store i :: ·) (ih h)

theorem trace_bind_of_error (h : p.run cells = .error e) :
    (p >>= f).trace cells = p.trace cells := by
  induction p generalizing cells with
  | done r =>
      cases r with
      | error e => rfl
      | ok a' => cases h
  | load i next ih => exact congrArg (CellAccess.load i :: ·) (ih (cells i) h)
  | store i v next ih => exact congrArg (CellAccess.store i :: ·) (ih h)

end Steps

/-! ### What a trace needs and changes -/

/-- The cells that a trace stores into. -/
def stored (tr : List (CellAccess ι)) : List ι :=
  tr.filterMap fun
    | .load _ => none
    | .store i => some i

/-- Every load of the trace is of a cell in `w`, or comes after a store into it. -/
def Covered (w : List ι) : List (CellAccess ι) → Prop
  | [] => True
  | .load i :: tr => i ∈ w ∧ Covered w tr
  | .store i :: tr => Covered (w ++ [i]) tr

section Traces

variable {w : List ι} {tr tr' : List (CellAccess ι)}

omit [DecidableEq ι] in
@[simp] theorem stored_nil : stored ([] : List (CellAccess ι)) = [] := rfl

omit [DecidableEq ι] in
@[simp] theorem stored_load (i : ι) : stored (.load i :: tr) = stored tr := rfl

omit [DecidableEq ι] in
@[simp] theorem stored_store (i : ι) : stored (.store i :: tr) = i :: stored tr := rfl

omit [DecidableEq ι] in
@[simp] theorem stored_append : stored (tr ++ tr') = stored tr ++ stored tr' :=
  List.filterMap_append

omit [DecidableEq ι] in
theorem covered_append :
    Covered w (tr ++ tr') ↔ Covered w tr ∧ Covered (w ++ stored tr) tr' := by
  induction tr generalizing w with
  | nil => simp [Covered]
  | cons a tr ih => cases a <;> simp [Covered, ih, and_assoc]

omit [DecidableEq ι] in
/-- A trace without stores is covered if its loads are in `w`, and only then. -/
theorem covered_iff_of_stored (h : stored tr = []) : Covered w tr ↔ ∀ i, .load i ∈ tr → i ∈ w := by
  induction tr with
  | nil => simp [Covered]
  | cons a tr ih =>
      cases a with
      | load i => simp [Covered, ih h, or_imp, forall_and]
      | store i => simp at h

end Traces

/-- **A program changes only what it stores into.** -/
theorem unstored {p : CellProgram V ε α} {cells cells' : ∀ i, V i} {a : α}
    (h : p.run cells = .ok (a, cells')) {i : ι} (hi : i ∉ stored (p.trace cells)) :
    cells' i = cells i := by
  induction p generalizing cells with
  | done r =>
      cases r with
      | error e => cases h
      | ok a' =>
          obtain ⟨-, rfl⟩ := Prod.mk.inj (Except.ok.inj h)
          rfl
  | load j next ih => exact ih (cells j) h hi
  | store j v next ih =>
      rw [trace, stored_store, List.mem_cons, not_or] at hi
      rw [ih h hi.2, Function.update_of_ne hi.1]

/-- **A program depends only on what it loads**: on cells that agree where its loads are
covered it makes the same accesses and ends the same, with cells that agree there and where it
has stored. -/
theorem run_of_agree {p : CellProgram V ε α} {cells other : ∀ i, V i} {w : List ι}
    (hcovered : Covered w (p.trace cells)) (hagree : ∀ i ∈ w, cells i = other i) :
    p.trace other = p.trace cells ∧ (∀ e, p.run cells = .error e → p.run other = .error e) ∧
      ∀ a cells', p.run cells = .ok (a, cells') → ∃ other', p.run other = .ok (a, other') ∧
        ∀ i ∈ w ++ stored (p.trace cells), cells' i = other' i := by
  induction p generalizing cells other w with
  | done r =>
      cases r with
      | error e =>
          refine ⟨rfl, fun _ h => h, fun a cells' h => ?_⟩
          cases h
      | ok a =>
          refine ⟨rfl, fun e h => ?_, fun a' cells' h => ?_⟩
          · cases h
          obtain ⟨rfl, rfl⟩ := Prod.mk.inj (Except.ok.inj h)
          exact ⟨other, rfl, by simpa [trace] using hagree⟩
  | load i next ih =>
      obtain ⟨hi, hrest⟩ := hcovered
      have hsame := hagree i hi
      obtain ⟨htrace, herror, hok⟩ := ih (cells i) hrest hagree
      simp only [run, trace, stored_load, ← hsame]
      exact ⟨congrArg (CellAccess.load i :: ·) htrace, herror, hok⟩
  | store i v next ih =>
      have hagree' : ∀ j ∈ w ++ [i], Function.update cells i v j = Function.update other i v j := by
        intro j hj
        by_cases hji : j = i
        · rw [hji, Function.update_self, Function.update_self]
        · rw [Function.update_of_ne hji, Function.update_of_ne hji]
          exact hagree j (by simpa [hji] using hj)
      obtain ⟨htrace, herror, hok⟩ := ih hcovered hagree'
      refine ⟨congrArg (CellAccess.store i :: ·) htrace, herror, fun a cells' h => ?_⟩
      obtain ⟨other', hrun, hsame⟩ := hok a cells' h
      exact ⟨other', hrun, by simpa [trace] using hsame⟩

/-! ### Programs that store nothing -/

/-- The program stores nothing, and **what it computes** is `x`. -/
structure Computes (p : CellProgram V ε α) (cells : ∀ i, V i) (x : Except ε α) : Prop where
  run : p.run cells = x.map (·, cells)
  pure : stored (p.trace cells) = []

theorem computes_pure (cells : ∀ i, V i) (a : α) :
    Computes (pure a : CellProgram V ε α) cells (.ok a) := ⟨rfl, rfl⟩

theorem computes_lift (cells : ∀ i, V i) (x : Except ε α) :
    Computes (liftM x : CellProgram V ε α) cells x := ⟨run_lift x, rfl⟩

theorem computes_get (cells : ∀ i, V i) (i : ι) :
    Computes (get i : CellProgram V ε (V i)) cells (.ok (cells i)) := ⟨rfl, rfl⟩

section Computes

variable {p : CellProgram V ε α} {f : α → CellProgram V ε β} {cells : ∀ i, V i} {x : Except ε α}
  {g : α → Except ε β} {w : List ι}

theorem Computes.bind (hp : Computes p cells x) (hf : ∀ a, x = .ok a → Computes (f a) cells (g a)) :
    Computes (p >>= f) cells (x >>= g) := by
  obtain ⟨hrun, hpure⟩ := hp
  cases x with
  | error e =>
      have herror : p.run cells = .error e := hrun
      exact ⟨by rw [run_bind, hrun]; rfl, by rw [trace_bind_of_error herror, hpure]⟩
  | ok a =>
      have hok : p.run cells = .ok (a, cells) := hrun
      refine ⟨?_, ?_⟩
      · rw [run_bind_of_ok hok]
        exact (hf a rfl).run
      · rw [trace_bind_of_ok hok, stored_append, hpure, (hf a rfl).pure]
        rfl

/-- The loads of a sequence are those of its parts. -/
theorem Computes.mem_trace_bind (hp : Computes p cells x) {c : CellAccess ι} :
    c ∈ (p >>= f).trace cells ↔ c ∈ p.trace cells ∨ ∃ a, x = .ok a ∧ c ∈ (f a).trace cells := by
  obtain ⟨hrun, -⟩ := hp
  cases x with
  | error e =>
      have herror : p.run cells = .error e := hrun
      rw [trace_bind_of_error herror]
      simp
  | ok a =>
      have hok : p.run cells = .ok (a, cells) := hrun
      rw [trace_bind_of_ok hok, List.mem_append]
      simp

theorem Computes.mem_trace_left (hp : Computes p cells x) {c : CellAccess ι}
    (h : c ∈ p.trace cells) : c ∈ (p >>= f).trace cells := hp.mem_trace_bind.2 (.inl h)

theorem Computes.mem_trace_right (hp : Computes p cells x) {a : α} (ha : x = .ok a)
    {c : CellAccess ι} (h : c ∈ (f a).trace cells) : c ∈ (p >>= f).trace cells :=
  hp.mem_trace_bind.2 (.inr ⟨a, ha, h⟩)

/-- The rule for loops. -/
theorem computes_foldlM {l : List β} {f : α → β → CellProgram V ε α} {g : α → β → Except ε α}
    (h : ∀ a b, Computes (f a b) cells (g a b)) (a : α) :
    Computes (l.foldlM f a) cells (l.foldlM g a) := by
  induction l generalizing a with
  | nil => exact computes_pure cells a
  | cons b l ih =>
      rw [List.foldlM_cons, List.foldlM_cons]
      exact (h a b).bind fun a' _ => ih a'

/-- The loads of a loop are those of its turns. -/
theorem mem_trace_foldlM {l : List β} {f : α → β → CellProgram V ε α} {g : α → β → Except ε α}
    (h : ∀ a b, Computes (f a b) cells (g a b)) {a : α} {c : CellAccess ι} :
    c ∈ (l.foldlM f a).trace cells ↔ ∃ pre b post a', l = pre ++ b :: post ∧
      pre.foldlM g a = .ok a' ∧ c ∈ (f a' b).trace cells := by
  induction l generalizing a with
  | nil => simp
  | cons b l ih =>
      rw [List.foldlM_cons, (h a b).mem_trace_bind]
      constructor
      · rintro (hc | ⟨a₁, ha₁, hc⟩)
        · exact ⟨[], b, l, a, rfl, rfl, hc⟩
        · obtain ⟨pre, b', post, a', rfl, hpre, hc⟩ := ih.1 hc
          refine ⟨b :: pre, b', post, a', rfl, ?_, hc⟩
          rw [List.foldlM_cons, ha₁]
          exact hpre
      · rintro ⟨pre, b', post, a', hl, hpre, hc⟩
        cases pre with
        | nil =>
            obtain ⟨rfl, rfl⟩ := List.cons.inj hl
            obtain rfl : a = a' := Except.ok.inj hpre
            exact .inl hc
        | cons b₁ pre =>
            obtain ⟨rfl, rfl⟩ := List.cons.inj hl
            rw [List.foldlM_cons] at hpre
            cases ha₁ : g a b with
            | error e =>
                rw [ha₁] at hpre
                cases hpre
            | ok a₁ =>
                rw [ha₁] at hpre
                exact .inr ⟨a₁, rfl, ih.2 ⟨pre, b', post, a', rfl, hpre, hc⟩⟩

end Computes

/-! ### Where loads are -/

/-- All loads of the program are of cells in `P`. -/
def LoadsIn (P : ι → Prop) (p : CellProgram V ε α) (cells : ∀ i, V i) : Prop :=
  ∀ i, .load i ∈ p.trace cells → P i

section LoadsIn

variable {P : ι → Prop} {p : CellProgram V ε α} {f : α → CellProgram V ε β} {cells : ∀ i, V i}
  {x : Except ε α}

theorem loadsIn_lift (y : Except ε α) : LoadsIn P (liftM y : CellProgram V ε α) cells := by
  intro i hi
  simp at hi

theorem loadsIn_pure (a : α) : LoadsIn P (pure a : CellProgram V ε α) cells := by
  intro i hi
  simp at hi

theorem loadsIn_get {i : ι} (h : P i) : LoadsIn P (get i : CellProgram V ε (V i)) cells := by
  intro j hj
  obtain rfl : j = i := by simpa using hj
  exact h

theorem LoadsIn.bind (hp : LoadsIn P p cells) (hx : Computes p cells x)
    (hf : ∀ a, x = .ok a → LoadsIn P (f a) cells) : LoadsIn P (p >>= f) cells := by
  intro i hi
  rcases hx.mem_trace_bind.1 hi with hi | ⟨a, ha, hi⟩
  · exact hp i hi
  · exact hf a ha i hi

theorem loadsIn_foldlM {l : List β} {f : α → β → CellProgram V ε α} {g : α → β → Except ε α}
    (h : ∀ a b, Computes (f a b) cells (g a b)) {a : α}
    (hf : ∀ pre b post a', l = pre ++ b :: post → pre.foldlM g a = .ok a' →
      LoadsIn P (f a' b) cells) :
    LoadsIn P (l.foldlM f a) cells := by
  intro i hi
  obtain ⟨pre, b, post, a', hl, hpre, hi⟩ := (mem_trace_foldlM h).1 hi
  exact hf pre b post a' hl hpre i hi

/-- A program without stores is covered if its loads are. -/
theorem Computes.covered {w : List ι} (hx : Computes p cells x) (h : LoadsIn (· ∈ w) p cells) :
    Covered w (p.trace cells) :=
  (covered_iff_of_stored hx.pure).2 h

end LoadsIn

/-! ### Programs that realize computations -/

/-- The program **realizes** the computation `x`: it stops with the fault of `x`, or ends with
its value, where its result and the cells that it leaves are seen through `view`. -/
def Realizes (p : CellProgram V ε α) (cells : ∀ i, V i) (view : α → (∀ i, V i) → β)
    (x : Except ε β) : Prop :=
  x = (p.run cells).map fun r => view r.1 r.2

section Realizes

variable {γ : Type} {p : CellProgram V ε α} {f : α → CellProgram V ε β} {cells : ∀ i, V i}
  {view : α → (∀ i, V i) → σ} {view' : β → (∀ i, V i) → γ} {x : Except ε σ}

theorem realizes_pure (view : α → (∀ i, V i) → β) (a : α) :
    Realizes (pure a : CellProgram V ε α) cells view (.ok (view a cells)) := rfl

theorem realizes_lift (view : α → (∀ i, V i) → β) (y : Except ε α) :
    Realizes (liftM y : CellProgram V ε α) cells view (y.map (view · cells)) := by
  cases y <;> rfl

theorem Realizes.of_run (hp : Realizes p cells view x) {a : α} {cells' : ∀ i, V i}
    (hrun : p.run cells = .ok (a, cells')) : x = .ok (view a cells') := by
  rw [Realizes, hrun] at hp
  exact hp

theorem Realizes.exists_run (hp : Realizes p cells view x) {b : σ} (hx : x = .ok b) :
    ∃ a cells', p.run cells = .ok (a, cells') ∧ view a cells' = b := by
  rw [Realizes, hx] at hp
  cases hrun : p.run cells with
  | error e =>
      rw [hrun] at hp
      cases hp
  | ok r =>
      rw [hrun] at hp
      exact ⟨r.1, r.2, rfl, (Except.ok.inj hp).symm⟩

/-- **The footprint of a program**: where its loads are covered, what it realizes depends only on
the cells that are there before, and of all cells only those change that it stores into. -/
theorem Realizes.footprint {other : ∀ i, V i} {w : List ι} {y : Except ε σ}
    (hx : Realizes p cells view x) (hy : Realizes p other view y)
    (hcovered : Covered w (p.trace cells)) (hagree : ∀ i ∈ w, cells i = other i) :
    (∀ e, x = .error e → y = .error e) ∧
      ∀ b, x = .ok b → ∃ a cells' other', b = view a cells' ∧ y = .ok (view a other') ∧
        (∀ i ∈ w ++ stored (p.trace cells), cells' i = other' i) ∧
        ∀ i ∉ stored (p.trace cells), cells' i = cells i ∧ other' i = other i := by
  obtain ⟨htrace, herror, hok⟩ := run_of_agree hcovered hagree
  refine ⟨fun e he => ?_, fun b hb => ?_⟩
  · rw [Realizes, he] at hx
    cases hrun : p.run cells with
    | error e' =>
        rw [hrun] at hx
        obtain rfl : e = e' := Except.error.inj hx
        rw [Realizes, herror e hrun] at hy
        exact hy
    | ok r =>
        rw [hrun] at hx
        cases hx
  · obtain ⟨a, cells', hrun, rfl⟩ := hx.exists_run hb
    obtain ⟨other', hrun', hsame⟩ := hok a cells' hrun
    exact ⟨a, cells', other', rfl, hy.of_run hrun', hsame, fun i hi =>
      ⟨unstored hrun hi, unstored hrun' (htrace ▸ hi)⟩⟩

theorem Realizes.bind (hp : Realizes p cells view x) {g : σ → Except ε γ}
    (hf : ∀ a cells', p.run cells = .ok (a, cells') →
      Realizes (f a) cells' view' (g (view a cells'))) :
    Realizes (p >>= f) cells view' (x >>= g) := by
  rw [Realizes] at hp ⊢
  rw [run_bind, hp]
  cases h : p.run cells with
  | error e => rfl
  | ok r => exact hf r.1 r.2 h

/-- What is computed first is at hand in the rest of the program. -/
theorem Computes.realizes_bind {y : Except ε α} (hp : Computes p cells y) {g : α → Except ε γ}
    (hf : ∀ a, y = .ok a → Realizes (f a) cells view' (g a)) :
    Realizes (p >>= f) cells view' (y >>= g) := by
  obtain ⟨hrun, -⟩ := hp
  rw [Realizes, run_bind, hrun]
  cases y with
  | error e => rfl
  | ok a => exact hf a rfl

/-- What is computed first is seen through `φ`. -/
theorem realizes_lift_bind {τ : Type} {φ : α → τ} {y : Except ε α} {g : τ → Except ε γ}
    (hf : ∀ a, y = .ok a → Realizes (f a) cells view' (g (φ a))) :
    Realizes (liftM y >>= f) cells view' (y.map φ >>= g) := by
  cases y with
  | error e => rfl
  | ok a => exact hf a rfl

theorem realizes_get_bind {i : ι} {next : V i → CellProgram V ε β} {y : Except ε γ}
    (h : Realizes (next (cells i)) cells view' y) :
    Realizes (get i >>= next) cells view' y := h

theorem realizes_set_bind {i : ι} {v : V i} {next : CellProgram V ε β} {y : Except ε γ}
    (h : Realizes next (Function.update cells i v) view' y) :
    Realizes (set i v >>= fun _ => next) cells view' y := h

/-- The rule for loops. -/
theorem realizes_foldlM {l : List β} {f : α → β → CellProgram V ε α} {g : σ → β → Except ε σ}
    (h : ∀ a b cells, Realizes (f a b) cells view (g (view a cells) b)) (a : α)
    (cells : ∀ i, V i) :
    Realizes (l.foldlM f a) cells view (l.foldlM g (view a cells)) := by
  induction l generalizing a cells with
  | nil => exact realizes_pure view a
  | cons b l ih =>
      rw [List.foldlM_cons, List.foldlM_cons]
      exact (h a b cells).bind fun a' cells' _ => ih a' cells'

end Realizes

/-! ### Loops -/

section Loops

variable {f : σ → β → CellProgram V ε σ} {l done rest : List β} {b : β} {s t : σ}
  {cells cells' : ∀ i, V i} {w : List ι}

/-- In a covered loop every turn that is reached is covered by what is there before. -/
theorem covered_of_foldlM (h : Covered w (((done ++ b :: rest).foldlM f s).trace cells))
    (hrun : (done.foldlM f s).run cells = .ok (t, cells')) :
    Covered (w ++ stored ((done.foldlM f s).trace cells)) ((f t b).trace cells') := by
  rw [List.foldlM_append, trace_bind_of_ok hrun, covered_append] at h
  rw [List.foldlM_cons] at h
  cases hturn : (f t b).run cells' with
  | error e =>
      rw [trace_bind_of_error hturn] at h
      exact h.2
  | ok r =>
      rw [trace_bind_of_ok hturn, covered_append] at h
      exact h.2.1

end Loops

/-! ### Programs that write first -/

/-- The program **writes first**: it loads only what is in `w` or what it has stored into. If it
ends then in `Q`, which may speak of the result, of the cells and of those that are written. -/
def WritesFirst (p : CellProgram V ε α) (cells : ∀ i, V i) (w : List ι)
    (Q : α → (∀ i, V i) → List ι → Prop) : Prop :=
  Covered w (p.trace cells) ∧
    ∀ a cells', p.run cells = .ok (a, cells') → Q a cells' (w ++ stored (p.trace cells))

section WritesFirst

variable {p : CellProgram V ε α} {f : α → CellProgram V ε β} {cells : ∀ i, V i} {w : List ι}
  {Q : β → (∀ i, V i) → List ι → Prop} {R : α → (∀ i, V i) → List ι → Prop} {x : Except ε α}

theorem writesFirst_pure {a : α} (h : R a cells w) :
    WritesFirst (pure a : CellProgram V ε α) cells w R := by
  refine ⟨trivial, fun a' cells' hrun => ?_⟩
  obtain ⟨rfl, rfl⟩ := Prod.mk.inj (Except.ok.inj hrun)
  simpa using h

theorem WritesFirst.bind (hp : WritesFirst p cells w R)
    (hf : ∀ a cells' v, R a cells' v → WritesFirst (f a) cells' v Q) :
    WritesFirst (p >>= f) cells w Q := by
  obtain ⟨hcovered, hend⟩ := hp
  cases hrun : p.run cells with
  | error e =>
      refine ⟨by rwa [trace_bind_of_error hrun], fun b cells' h => ?_⟩
      rw [run_bind, hrun] at h
      cases h
  | ok r =>
      obtain ⟨hrest, hQ⟩ := hf r.1 r.2 _ (hend r.1 r.2 hrun)
      rw [WritesFirst, trace_bind_of_ok hrun, covered_append, stored_append, run_bind_of_ok hrun,
        ← List.append_assoc]
      exact ⟨⟨hcovered, hrest⟩, hQ⟩

theorem WritesFirst.mono {R' : α → (∀ i, V i) → List ι → Prop} (hp : WritesFirst p cells w R)
    (h : ∀ a cells' v, R a cells' v → R' a cells' v) : WritesFirst p cells w R' :=
  ⟨hp.1, fun a cells' hrun => h a cells' _ (hp.2 a cells' hrun)⟩

theorem Computes.writesFirst (hx : Computes p cells x) (hp : LoadsIn (· ∈ w) p cells)
    (h : ∀ a, x = .ok a → R a cells w) : WritesFirst p cells w R := by
  refine ⟨hx.covered hp, fun a cells' hrun => ?_⟩
  rw [hx.run] at hrun
  rw [hx.pure, List.append_nil]
  obtain ⟨a', ha, hsame⟩ : ∃ a', x = .ok a' ∧ (a', cells) = (a, cells') := by
    cases x with
    | error e => cases hrun
    | ok a' => exact ⟨a', rfl, Except.ok.inj hrun⟩
  obtain ⟨rfl, rfl⟩ := Prod.mk.inj hsame
  exact h a' ha

/-- What a program that stores nothing computes is at hand in the rest. -/
theorem Computes.writesFirst_bind (hx : Computes p cells x) (hp : LoadsIn (· ∈ w) p cells)
    (hf : ∀ a, x = .ok a → WritesFirst (f a) cells w Q) : WritesFirst (p >>= f) cells w Q := by
  have hfirst : WritesFirst p cells w fun a cells' v => x = .ok a ∧ cells' = cells ∧ v = w :=
    hx.writesFirst hp fun a ha => ⟨ha, rfl, rfl⟩
  refine hfirst.bind ?_
  rintro a cells' v ⟨ha, rfl, rfl⟩
  exact hf a ha

theorem writesFirst_lift_bind (hf : ∀ a, x = .ok a → WritesFirst (f a) cells w Q) :
    WritesFirst (liftM x >>= f) cells w Q :=
  (computes_lift cells x).writesFirst_bind (loadsIn_lift x) hf

theorem writesFirst_get_bind {i : ι} {next : V i → CellProgram V ε β} (hi : i ∈ w)
    (h : WritesFirst (next (cells i)) cells w Q) : WritesFirst (get i >>= next) cells w Q :=
  ⟨⟨hi, h.1⟩, h.2⟩

theorem writesFirst_set_bind {i : ι} {v : V i} {next : CellProgram V ε β}
    (h : WritesFirst next (Function.update cells i v) (w ++ [i]) Q) :
    WritesFirst (set i v >>= fun _ => next) cells w Q := by
  refine ⟨h.1, fun b cells' hrun => ?_⟩
  have hQ := h.2 b cells' hrun
  rwa [List.append_assoc] at hQ

theorem WritesFirst.with_run (hp : WritesFirst p cells w R) :
    WritesFirst p cells w fun a cells' v => p.run cells = .ok (a, cells') ∧ R a cells' v :=
  ⟨hp.1, fun a cells' hrun => ⟨hrun, hp.2 a cells' hrun⟩⟩

section Loops

variable {l : List β} {f : σ → β → CellProgram V ε σ} {s : σ}
  (Inv : List β → σ → (∀ i, V i) → List ι → Prop)

/-- **The rule for loops.** A loop writes first if each turn that it gets to does under the
invariant, and keeps it. -/
theorem writesFirst_foldlM (h0 : Inv [] s cells w)
    (hturn : ∀ done b rest t cells' v, l = done ++ b :: rest →
      (done.foldlM f s).run cells = .ok (t, cells') → Inv done t cells' v →
      WritesFirst (f t b) cells' v (Inv (done ++ [b]))) :
    WritesFirst (l.foldlM f s) cells w (Inv l) := by
  suffices H : ∀ done rest, l = done ++ rest → WritesFirst (done.foldlM f s) cells w (Inv done) from
    H l [] (List.append_nil l).symm
  intro done
  induction done using List.reverseRecOn with
  | nil => exact fun _ _ => writesFirst_pure h0
  | append_singleton done b ih =>
      intro rest hl
      rw [List.append_assoc, List.singleton_append] at hl
      rw [List.foldlM_append]
      refine (ih _ hl).with_run.bind fun t cells' v hinv => ?_
      simp only [List.foldlM_cons, List.foldlM_nil, bind_pure]
      exact hturn done b rest t cells' v hl hinv.1 hinv.2

/-- The rule for loops, **in both directions**: if under the invariant a turn is covered exactly
when `C` holds of it, then so is the loop exactly when `C` holds of all turns that it gets to. -/
theorem covered_foldlM_iff (C : List β → β → σ → (∀ i, V i) → Prop) (h0 : Inv [] s cells w)
    (hturn : ∀ done b rest t cells' v, l = done ++ b :: rest → Inv done t cells' v →
      (Covered v ((f t b).trace cells') → C done b t cells') ∧
        (C done b t cells' → WritesFirst (f t b) cells' v (Inv (done ++ [b])))) :
    Covered w ((l.foldlM f s).trace cells) ↔
      ∀ done b rest t cells', l = done ++ b :: rest →
        (done.foldlM f s).run cells = .ok (t, cells') → C done b t cells' := by
  constructor
  · intro hcovered done
    -- the turns before this one are as `C` says, since the loop has got to each of them
    induction hlen : done.length using Nat.strongRecOn generalizing done with
    | ind n ih =>
        intro b rest t cells' hl hrun
        have hbefore : WritesFirst (done.foldlM f s) cells w (Inv done) := by
          refine writesFirst_foldlM Inv h0 fun pre b' rest' t' cells₁ v hdone hpre hinv => ?_
          have hl' : l = pre ++ b' :: (rest' ++ b :: rest) := by simp [hl, hdone]
          have hlt : pre.length < n := by
            rw [← hlen, hdone, List.length_append, List.length_cons]
            omega
          exact (hturn pre b' _ t' cells₁ v hl' hinv).2 (ih _ hlt pre rfl b' _ t' cells₁ hl' hpre)
        have hinv := hbefore.2 t cells' hrun
        rw [hl] at hcovered
        exact (hturn done b rest t cells' _ hl hinv).1 (covered_of_foldlM hcovered hrun)
  · intro hall
    refine (writesFirst_foldlM Inv h0 fun done b rest t cells' v hl hrun hinv => ?_).1
    exact (hturn done b rest t cells' v hl hinv).2 (hall done b rest t cells' hl hrun)

end Loops

end WritesFirst

end CellProgram

end Floss
