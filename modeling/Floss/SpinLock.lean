import Mathlib.Logic.Function.Basic
import Mathlib.Data.BitVec
import Floss.Runs

/-!
# The Spin Lock

`SpinLock` keeps one 32-bit word, zero when the lock is free. `lock()` is a loop of five
instructions around an exclusive load and an exclusive store, `unlock()` one
store-release of zero, and `SpinLockGuard` runs the first in its constructor and the
second in its destructor. The cores are the elements of an arbitrary type; a step is one
instruction of one core, so that a run is an interleaving of the cores' instructions.

The exclusive monitors are part of the state: `ldaxr` sets the monitor of its own core,
every store to the word clears all of them, `stxr` clears its own, and a monitor may be
lost at any time. A `stxr` stores only while the monitor of its core is set; it may fail
all the same.

* `Step`: one instruction of one core;
* `Inv`: the inductive invariant, which ties the word, the program counters, the
  registers and the monitors together;
* `mutual_exclusion`: at most one core is past `lock()` and before the store of its
  `unlock()`, and the word is one exactly while a core's last store to it is a
  successful `stxr`.
-/

namespace Floss

namespace SpinLock

variable {ι : Type}

/-- The next instruction of a core. `critical` is everything between the end of
`lock()` and the call of `unlock()`. -/
inductive Pc
  | outside
  | ldaxr
  | cbnzRead
  | mov
  | stxr
  | cbnzStore
  | critical
  | stlr
  deriving DecidableEq, Repr

/-- The lock word, and for each core its program counter, the two registers of the
inline assembly and its exclusive monitor. -/
structure State (ι : Type) where
  /-- the member `_lock` -/
  lock : BitVec 32
  pc : ι → Pc
  /-- the register of `lock_read` -/
  lockRead : ι → BitVec 32
  /-- the register of `store_result` -/
  storeResult : ι → BitVec 32
  monitor : ι → Bool

/-- What a core does in one step. A `stxr` says whether it stored. -/
inductive Event
  | lock
  | ldaxr
  | cbnzRead
  | mov
  | stxr (stored : Bool)
  | cbnzStore
  | unlock
  | stlr
  | monitorLost
  deriving DecidableEq, Repr

section Steps

variable [DecidableEq ι]

/-- Move the program counter of core `i`. -/
def State.goto (s : State ι) (i : ι) (p : Pc) : State ι :=
  { s with pc := Function.update s.pc i p }

/-- **One instruction of one core**, and the loss of a monitor. -/
inductive Step : State ι → ι × Event → State ι → Prop
  /-- the guard's constructor calls `lock()` -/
  | lock {s : State ι} {i : ι} (at_ : s.pc i = .outside) :
      Step s (i, .lock) (s.goto i .ldaxr)
  | ldaxr {s : State ι} {i : ι} (at_ : s.pc i = .ldaxr) :
      Step s (i, .ldaxr)
        { s.goto i .cbnzRead with
          lockRead := Function.update s.lockRead i s.lock
          monitor := Function.update s.monitor i true }
  | cbnzRead {s : State ι} {i : ι} (at_ : s.pc i = .cbnzRead) :
      Step s (i, .cbnzRead) (s.goto i (if s.lockRead i ≠ 0 then .ldaxr else .mov))
  | mov {s : State ι} {i : ι} (at_ : s.pc i = .mov) :
      Step s (i, .mov)
        { s.goto i .stxr with lockRead := Function.update s.lockRead i 1 }
  | stxrStored {s : State ι} {i : ι} (at_ : s.pc i = .stxr) (held : s.monitor i = true) :
      Step s (i, .stxr true)
        { s.goto i .cbnzStore with
          lock := s.lockRead i
          storeResult := Function.update s.storeResult i 0
          monitor := fun _ => false }
  | stxrFailed {s : State ι} {i : ι} (at_ : s.pc i = .stxr) :
      Step s (i, .stxr false)
        { s.goto i .cbnzStore with
          storeResult := Function.update s.storeResult i 1
          monitor := Function.update s.monitor i false }
  | cbnzStore {s : State ι} {i : ι} (at_ : s.pc i = .cbnzStore) :
      Step s (i, .cbnzStore)
        (s.goto i (if s.storeResult i ≠ 0 then .ldaxr else .critical))
  /-- the guard's destructor calls `unlock()` -/
  | unlock {s : State ι} {i : ι} (at_ : s.pc i = .critical) :
      Step s (i, .unlock) (s.goto i .stlr)
  | stlr {s : State ι} {i : ι} (at_ : s.pc i = .stlr) :
      Step s (i, .stlr) { s.goto i .outside with lock := 0, monitor := fun _ => false }
  | monitorLost {s : State ι} {i : ι} :
      Step s (i, .monitorLost) { s with monitor := Function.update s.monitor i false }

end Steps

/-- The word starts at zero with every core outside; registers and monitors are
arbitrary. -/
structure Initial (s : State ι) : Prop where
  lock : s.lock = 0
  pc : ∀ i, s.pc i = .outside

/-- Core `i` is between the end of `lock()` and the store of its `unlock()`. -/
def Between (s : State ι) (i : ι) : Prop :=
  s.pc i = .critical ∨ s.pc i = .stlr

/-- Core `i` has performed a successful `stxr` and not yet its `stlr`. -/
def Stored (tr : List (ι × Event)) (i : ι) : Prop :=
  Since (· = (i, .stxr true)) (· = (i, .stlr)) tr

/-! ### The invariant -/

/-- Core `i` has taken the lock, seen from its program counter and registers. -/
def Owner (s : State ι) (i : ι) : Prop :=
  Between s i ∨ (s.pc i = .cbnzStore ∧ s.storeResult i = 0)

/-- **The invariant**. The monitor is what lets a core that read zero store one: while
it is set, the word is still the one that was read. -/
structure Inv (tr : List (ι × Event)) (s : State ι) : Prop where
  /-- the registers and the program counter say what the history says -/
  stored : ∀ i, Stored tr i ↔ Owner s i
  unique : ∀ i j, Owner s i → Owner s j → i = j
  held : ∀ i, Owner s i → s.lock = 1
  free : (∀ i, ¬ Owner s i) → s.lock = 0
  read : ∀ i, s.pc i = .cbnzRead → s.monitor i = true → s.lockRead i = s.lock
  clear : ∀ i, s.pc i = .mov ∨ s.pc i = .stxr → s.monitor i = true → s.lock = 0
  one : ∀ i, s.pc i = .stxr → s.lockRead i = 1

/-- What one more event does to the history of a core's stores. -/
theorem stored_snoc {tr : List (ι × Event)} {i j : ι} {e : Event} :
    Stored (tr ++ [(j, e)]) i ↔
      (j = i ∧ e = .stxr true) ∨ (Stored tr i ∧ ¬ (j = i ∧ e = .stlr)) := by
  simp only [Stored, since_snoc, Prod.mk.injEq]

/-- At the start no core owns the lock and no core is inside `lock()`. -/
theorem inv_initial {s : State ι} (h : Initial s) : Inv [] s := by
  have hnone : ∀ i, ¬ Owner s i := by
    intro i hi
    simp [Owner, Between, h.pc i] at hi
  refine ⟨fun i => ?_, ?_, ?_, fun _ => h.lock, ?_, ?_, ?_⟩
  · exact iff_of_false (not_since_nil _ _) (hnone i)
  · exact fun i _ hi _ => absurd hi (hnone i)
  · exact fun i hi => absurd hi (hnone i)
  all_goals
    intro i hi
    simp [h.pc i] at hi

/-- The registers, the program counter and the monitor of core `j` are unchanged. -/
structure SameCore (s s' : State ι) (j : ι) : Prop where
  pc : s'.pc j = s.pc j
  lockRead : s'.lockRead j = s.lockRead j
  storeResult : s'.storeResult j = s.storeResult j
  monitor : s'.monitor j = s.monitor j

/-- A core that did not move owns the lock as before. -/
theorem SameCore.owner {s s' : State ι} {j : ι} (h : SameCore s s' j) :
    Owner s' j ↔ Owner s j := by
  simp only [Owner, Between, h.pc, h.storeResult]

/-- **Steps that leave the word and its owner alone** keep the invariant as soon as they
keep what it says about the core that moved. -/
theorem Inv.quiet {tr : List (ι × Event)} {s s' : State ι} {i : ι} {e : Event}
    (h : Inv tr s) (hstored : e ≠ .stxr true) (hstlr : e ≠ .stlr)
    (hlock : s'.lock = s.lock) (hothers : ∀ j, j ≠ i → SameCore s s' j)
    (howner : Owner s' i ↔ Owner s i)
    (hread : s'.pc i = .cbnzRead → s'.monitor i = true → s'.lockRead i = s.lock)
    (hclear : s'.pc i = .mov ∨ s'.pc i = .stxr → s'.monitor i = true → s.lock = 0)
    (hone : s'.pc i = .stxr → s'.lockRead i = 1) :
    Inv (tr ++ [(i, e)]) s' := by
  have hown : ∀ j, Owner s' j ↔ Owner s j := by
    intro j
    rcases eq_or_ne j i with rfl | hj
    · exact howner
    · exact (hothers j hj).owner
  refine ⟨fun j => ?_, ?_, ?_, fun hnone => ?_, fun j hj hmon => ?_, fun j hj hmon => ?_,
    fun j hj => ?_⟩
  · rw [stored_snoc, hown, ← h.stored]
    simp [hstored, hstlr]
  · exact fun j k hj hk => h.unique j k ((hown j).1 hj) ((hown k).1 hk)
  · exact fun j hj => hlock.trans (h.held j ((hown j).1 hj))
  · exact hlock.trans (h.free fun j hj => hnone j ((hown j).2 hj))
  · rcases eq_or_ne j i with rfl | hne
    · rw [hlock]
      exact hread hj hmon
    · obtain ⟨hpc, hr, -, hm⟩ := hothers j hne
      rw [hr, hlock]
      exact h.read j (hpc ▸ hj) (hm ▸ hmon)
  · rcases eq_or_ne j i with rfl | hne
    · rw [hlock]
      exact hclear hj hmon
    · obtain ⟨hpc, -, -, hm⟩ := hothers j hne
      rw [hlock]
      exact h.clear j (hpc ▸ hj) (hm ▸ hmon)
  · rcases eq_or_ne j i with rfl | hne
    · exact hone hj
    · obtain ⟨hpc, hr, -, -⟩ := hothers j hne
      rw [hr]
      exact h.one j (hpc ▸ hj)

variable [DecidableEq ι]

/-- Moving the program counter of one core leaves the others alone. -/
theorem sameCore_goto {s : State ι} {i j : ι} (p : Pc) (hj : j ≠ i) :
    SameCore s (s.goto i p) j := by
  constructor <;> simp [State.goto, hj]

/-- A successful `stxr` found the word free, so the storing core becomes the only
owner. -/
theorem Inv.stxrStored {tr : List (ι × Event)} {s : State ι} {i : ι} (h : Inv tr s)
    (at_ : s.pc i = .stxr) (held : s.monitor i = true) :
    Inv (tr ++ [(i, .stxr true)])
      { s.goto i .cbnzStore with
        lock := s.lockRead i
        storeResult := Function.update s.storeResult i 0
        monitor := fun _ => false } := by
  have hzero : s.lock = 0 := h.clear i (.inr at_) held
  have hnone : ∀ j, ¬ Owner s j := by
    intro j hj
    have := h.held j hj
    rw [hzero] at this
    simp at this
  have howner : ∀ j, Owner { s.goto i .cbnzStore with
      lock := s.lockRead i
      storeResult := Function.update s.storeResult i 0
      monitor := fun _ => false } j ↔ j = i := by
    intro j
    rcases eq_or_ne j i with rfl | hj
    · simp [Owner, State.goto]
    · have := hnone j
      simpa [Owner, Between, State.goto, hj] using this
  refine ⟨fun j => ?_, ?_, fun j _ => h.one i at_, fun hno => ?_, ?_, ?_, ?_⟩
  · rw [stored_snoc, howner, h.stored]
    simp [hnone j, eq_comm]
  · intro j k hj hk
    rw [(howner j).1 hj, (howner k).1 hk]
  · exact absurd ((howner i).2 rfl) (hno i)
  · intro j _ hmon
    simp at hmon
  · intro j _ hmon
    simp at hmon
  · intro j hj
    rcases eq_or_ne j i with rfl | hne
    · simp [State.goto] at hj
    · simp only [State.goto, Function.update_of_ne hne] at hj
      exact h.one j hj

/-- The `stlr` of the only owner frees the word and leaves no owner. -/
theorem Inv.stlr {tr : List (ι × Event)} {s : State ι} {i : ι} (h : Inv tr s)
    (at_ : s.pc i = .stlr) :
    Inv (tr ++ [(i, .stlr)])
      { s.goto i .outside with lock := 0, monitor := fun _ => false } := by
  have hown : Owner s i := .inl (.inr at_)
  have hnone : ∀ j, ¬ Owner { s.goto i .outside with
      lock := 0, monitor := fun _ => false } j := by
    intro j hj
    rcases eq_or_ne j i with rfl | hne
    · simp [Owner, Between, State.goto] at hj
    · refine hne (h.unique j i ?_ hown)
      simpa [Owner, Between, State.goto, hne] using hj
  refine ⟨fun j => ?_, ?_, ?_, fun _ => rfl, ?_, ?_, ?_⟩
  · rw [stored_snoc]
    refine iff_of_false ?_ (hnone j)
    rintro (⟨-, he⟩ | ⟨hst, hne⟩)
    · simp at he
    · exact hne ⟨h.unique i j hown ((h.stored j).1 hst), rfl⟩
  · exact fun j _ hj _ => absurd hj (hnone j)
  · exact fun j hj => absurd hj (hnone j)
  · intro j _ hmon
    simp at hmon
  · intro j _ hmon
    simp at hmon
  · intro j hj
    rcases eq_or_ne j i with rfl | hne
    · simp [State.goto] at hj
    · simp only [State.goto, Function.update_of_ne hne] at hj
      exact h.one j hj

/-- **Every step keeps the invariant**. -/
theorem inv_step {tr : List (ι × Event)} {s s' : State ι} {a : ι × Event}
    (h : Inv tr s) (hstep : Step s a s') : Inv (tr ++ [a]) s' := by
  cases hstep with
  | stxrStored at_ held => exact h.stxrStored at_ held
  | stlr at_ => exact h.stlr at_
  | @lock i at_ =>
    refine h.quiet (by simp) (by simp) rfl (fun j hj => sameCore_goto _ hj) ?_ ?_ ?_ ?_ <;>
      simp [Owner, Between, State.goto, at_]
  | @ldaxr i at_ =>
    refine h.quiet (by simp) (by simp) rfl (fun j hj => ?_) ?_ ?_ ?_ ?_
    · constructor <;> simp [State.goto, hj]
    all_goals simp [Owner, Between, State.goto, at_]
  | @cbnzRead i at_ =>
    -- a core that saw zero and still has its monitor knows the word is zero
    have hread := h.read i at_
    refine h.quiet (by simp) (by simp) rfl (fun j hj => sameCore_goto _ hj) ?_ ?_ ?_ ?_ <;>
      by_cases hz : s.lockRead i = 0#32 <;>
      simp [Owner, Between, State.goto, at_, hz]
    intro hmon
    rw [← hread hmon, hz]
  | @mov i at_ =>
    have hclear := h.clear i (.inl at_)
    refine h.quiet (by simp) (by simp) rfl (fun j hj => ?_) ?_ ?_ ?_ ?_
    · constructor <;> simp [State.goto, hj]
    all_goals simp [Owner, Between, State.goto, at_]
    exact hclear
  | @stxrFailed i at_ =>
    refine h.quiet (by simp) (by simp) rfl (fun j hj => ?_) ?_ ?_ ?_ ?_
    · constructor <;> simp [State.goto, hj]
    all_goals simp [Owner, Between, State.goto, at_]
  | @cbnzStore i at_ =>
    refine h.quiet (by simp) (by simp) rfl (fun j hj => sameCore_goto _ hj) ?_ ?_ ?_ ?_ <;>
      by_cases hz : s.storeResult i = 0#32 <;>
      simp [Owner, Between, State.goto, at_, hz]
  | @unlock i at_ =>
    refine h.quiet (by simp) (by simp) rfl (fun j hj => sameCore_goto _ hj) ?_ ?_ ?_ ?_ <;>
      simp [Owner, Between, State.goto, at_]
  | @monitorLost i =>
    refine h.quiet (by simp) (by simp) rfl (fun j hj => ?_) ?_ ?_ ?_ ?_
    · constructor <;> simp [hj]
    all_goals simp [Owner, Between]
    exact h.one i

/-! ### Mutual exclusion -/

/-- **Mutual exclusion**. In every interleaving of any number of cores, at most one core
is between the end of `lock()` and the store of its `unlock()`, and the word is one
exactly while some core has performed its successful `stxr` and not yet its `stlr`. -/
theorem mutual_exclusion {s t : State ι} {tr : List (ι × Event)} (start : Initial s)
    (run : Run Step s tr t) :
    (∀ i j, Between t i → Between t j → i = j) ∧ (t.lock = 1 ↔ ∃ i, Stored tr i) := by
  have h : Inv tr t :=
    run.invariant Inv (inv_initial start) fun _ _ _ _ hinv hstep => inv_step hinv hstep
  refine ⟨fun i j hi hj => h.unique i j (.inl hi) (.inl hj), ?_, ?_⟩
  · intro hone
    by_contra hno
    have hzero := h.free fun i hi => hno ⟨i, (h.stored i).2 hi⟩
    rw [hzero] at hone
    simp at hone
  · rintro ⟨i, hi⟩
    exact h.held i ((h.stored i).1 hi)

/-- Two cores before either has called `lock()`. -/
def twoIdle : State Bool where
  lock := 0
  pc _ := .outside
  lockRead _ := 0
  storeResult _ := 0
  monitor _ := false

/-- The second core loads the word before the first one stores to it and loses its
monitor by that store; the first core gets the lock. -/
theorem mutual_exclusion_twoIdle : ∃ t tr, Run Step twoIdle tr t ∧ Between t true ∧
    (∀ i j, Between t i → Between t j → i = j) ∧ (t.lock = 1 ↔ ∃ i, Stored tr i) := by
  have start : Initial twoIdle := ⟨rfl, fun _ => rfl⟩
  have run := ((((((((Run.refl : Run Step twoIdle [] twoIdle).snoc
    (.lock (i := true) rfl)).snoc (.lock (i := false) rfl)).snoc
    (.ldaxr (i := true) rfl)).snoc (.ldaxr (i := false) rfl)).snoc
    (.cbnzRead (i := true) rfl)).snoc (.mov (i := true) rfl)).snoc
    (.stxrStored (i := true) rfl rfl)).snoc (.cbnzStore (i := true) rfl)
  exact ⟨_, _, run, .inl rfl, mutual_exclusion start run⟩

end SpinLock

end Floss
