import Floss.Formats
import Floss.SpinLock

/-!
# Work Under the Lock

`secondary_kern_main` prints one line under `_print_lock`, and the cores do so all at once. What
a core does between the constructor and the destructor of its guard is a list of updates of
shared data, here one character handed to the UART after the other; between two updates any
other core may take any number of steps. All of this is about runs in which no interrupt is
taken and nothing else prints: `irq_handler` and `boot_secondary_cores` print without the lock.

* `Guarded.Step`: the instructions of the lock, and the updates;
* `Guarded.Inv`: whoever is inside has done a first part of its updates, on top of the whole
  sections of the cores that have left;
* `guarded_serial`: **the cores take turns**: the data are those of running whole sections one
  after the other, in the order in which the cores released the lock;
* `lines_whole`: the lines come out whole;
* `lock_available`: the lock is never stuck. From every state that can be reached, a core that
  waits in `lock()` can still get it.
-/

namespace Floss

namespace SpinLock

variable {ι δ : Type}

/-- Cores with a lock, the data it protects, and what each core still has to do before its
guard goes out of scope. -/
structure Guarded (ι δ : Type) where
  core : State ι
  data : δ
  todo : ι → List (δ → δ)

/-- Run updates, first to last. -/
def applyAll (fs : List (δ → δ)) (d : δ) : δ := fs.foldl (fun d f => f d) d

theorem applyAll_append (fs gs : List (δ → δ)) (d : δ) :
    applyAll (fs ++ gs) d = applyAll gs (applyAll fs d) := List.foldl_append

section Step

variable [DecidableEq ι] (work : ι → List (δ → δ))

/-- **One step of one core**: an instruction of the lock, or an update. When a core calls
`lock()` its section lies before it, and it calls `unlock()` when nothing of it is left. No step
takes an interrupt, and none touches the data outside the lock. -/
inductive Guarded.Step : Guarded ι δ → ι × Option Event → Guarded ι δ → Prop
  | instr {s : Guarded ι δ} {i : ι} {e : Event} {c : State ι} (step : SpinLock.Step s.core (i, e) c)
      (done : e = .unlock → s.todo i = []) :
      Guarded.Step s (i, some e)
        ⟨c, s.data, if e = .lock then Function.update s.todo i (work i) else s.todo⟩
  | update {s : Guarded ι δ} {i : ι} {f : δ → δ} {fs : List (δ → δ)}
      (inside : s.core.pc i = .critical) (next : s.todo i = f :: fs) :
      Guarded.Step s (i, none) ⟨s.core, f s.data, Function.update s.todo i fs⟩

/-- Whole sections, one after the other. -/
def serial (cores : List ι) (d : δ) : δ := cores.foldl (fun d i => applyAll (work i) d) d

end Step

/-- The instructions in a history. -/
def instrs (tr : List (ι × Option Event)) : List (ι × Event) :=
  tr.filterMap fun a => a.2.map (a.1, ·)

/-- The cores in the order in which they released the lock. -/
def released (tr : List (ι × Option Event)) : List ι :=
  tr.filterMap fun a => if a.2 = some .stlr then some a.1 else none

/-! ### The invariant -/

/-- Who has called `lock()` and not got the lock yet. -/
def Waiting (s : State ι) (i : ι) : Prop := s.pc i ≠ .outside ∧ ¬ Between s i

/-- **The invariant**, for data that were `d` at the start. -/
structure Guarded.Inv (work : ι → List (δ → δ)) (d : δ) (tr : List (ι × Option Event))
    (t : Guarded ι δ) : Prop where
  lock : SpinLock.Inv (instrs tr) t.core
  waiting : ∀ i, Waiting t.core i → t.todo i = work i
  leaving : ∀ i, t.core.pc i = .stlr → t.todo i = []
  inside : ∀ i, Between t.core i → ∃ pre, work i = pre ++ t.todo i ∧
    t.data = applyAll pre (serial work (released tr) d)
  idle : (∀ i, ¬ Between t.core i) → t.data = serial work (released tr) d

section Steps

variable {work : ι → List (δ → δ)} {d : δ} {tr : List (ι × Option Event)} {s t : Guarded ι δ}

theorem Guarded.inv_initial (hs : Initial s.core) : Guarded.Inv work s.data [] s := by
  have hout : ∀ i, ¬ Between s.core i := by
    intro i hi
    simp [Between, hs.pc i] at hi
  refine ⟨SpinLock.inv_initial hs, fun i hi => ?_, fun i hi => ?_, fun i hi => ?_, fun _ => rfl⟩
  · exact absurd (hs.pc i) hi.1
  · rw [hs.pc i] at hi
    cases hi
  · exact absurd hi (hout i)

/-- Nobody else is inside while a core owns the lock. -/
theorem Guarded.Inv.alone (h : Guarded.Inv work d tr t) {i j : ι} (hi : Owner t.core i)
    (hj : Between t.core j) : j = i := h.lock.unique j i (.inl hj) hi

@[simp] theorem instrs_instr (i : ι) (e : Event) :
    instrs (tr ++ [(i, some e)]) = instrs tr ++ [(i, e)] := by
  simp [instrs]

@[simp] theorem instrs_update (i : ι) : instrs (tr ++ [(i, none)]) = instrs tr := by
  simp [instrs]

theorem released_of_ne {a : ι × Option Event} (h : a.2 ≠ some .stlr) :
    released (tr ++ [a]) = released tr := by
  simp [released, h]

theorem released_stlr (i : ι) : released (tr ++ [(i, some .stlr)]) = released tr ++ [i] := by
  simp [released]

variable [DecidableEq ι]

/-- Where an instruction can take a core: into `lock()`, out of it with the lock, into
`unlock()` and out of it; all others stay inside `lock()` or where they are. -/
theorem step_pc {s c : State ι} {i : ι} {e : Event} (h : Step s (i, e) c) :
    (∀ j, j ≠ i → c.pc j = s.pc j) ∧
      ((e = .lock ∧ s.pc i = .outside ∧ Waiting c i) ∨
        (e = .cbnzStore ∧ Owner s i ∧ Waiting s i ∧ c.pc i = .critical) ∨
        (e = .unlock ∧ s.pc i = .critical ∧ c.pc i = .stlr) ∨
        (e = .stlr ∧ s.pc i = .stlr ∧ c.pc i = .outside) ∨
        (e ≠ .lock ∧ e ≠ .stlr ∧ (Waiting s i ∧ Waiting c i ∨ c.pc i = s.pc i))) := by
  refine ⟨fun j hj => ?_, ?_⟩
  · cases h <;> simp [State.goto, hj]
  · cases h with
    | lock at_ => exact .inl ⟨rfl, at_, by simp [Waiting, Between, State.goto]⟩
    | cbnzStore at_ =>
        by_cases hz : s.storeResult i = 0#32
        · refine .inr (.inl ⟨rfl, .inr ⟨at_, hz⟩, ?_, ?_⟩)
          · simp [Waiting, Between, at_]
          · simp [State.goto, hz]
        · refine .inr (.inr (.inr (.inr ⟨by simp, by simp, .inl ⟨?_, ?_⟩⟩)))
          · simp [Waiting, Between, at_]
          · simp [Waiting, Between, State.goto, hz]
    | unlock at_ => exact .inr (.inr (.inl ⟨rfl, at_, by simp [State.goto]⟩))
    | stlr at_ => exact .inr (.inr (.inr (.inl ⟨rfl, at_, by simp [State.goto]⟩)))
    | monitorLost => exact .inr (.inr (.inr (.inr ⟨by simp, by simp, .inr rfl⟩)))
    | cbnzRead at_ =>
        refine .inr (.inr (.inr (.inr ⟨by simp, by simp, .inl ⟨?_, ?_⟩⟩)))
        · simp [Waiting, Between, at_]
        · by_cases hz : s.lockRead i = 0#32 <;> simp [Waiting, Between, State.goto, hz]
    | ldaxr at_ | mov at_ | stxrStored at_ | stxrFailed at_ =>
        refine .inr (.inr (.inr (.inr ⟨by simp, by simp, .inl ⟨?_, ?_⟩⟩)))
        · simp [Waiting, Between, at_]
        · simp [Waiting, Between, State.goto]

/-- An instruction after which the same cores are inside keeps the invariant, if it keeps what
the invariant says about its own core. -/
theorem Guarded.Inv.quiet {c : State ι} {i : ι} {e : Event} {todo : ι → List (δ → δ)}
    (h : Guarded.Inv work d tr t) (hlock : SpinLock.Inv (instrs (tr ++ [(i, some e)])) c)
    (hne : e ≠ .stlr) (hothers : ∀ j, j ≠ i → c.pc j = t.core.pc j)
    (htodo : ∀ j, j ≠ i → todo j = t.todo j) (hsame : Between c i ↔ Between t.core i)
    (hwaiting : Waiting c i → todo i = work i) (hleaving : c.pc i = .stlr → todo i = [])
    (hkept : Between c i → todo i = t.todo i) :
    Guarded.Inv work d (tr ++ [(i, some e)]) ⟨c, t.data, todo⟩ := by
  have hreleased : released (tr ++ [(i, some e)]) = released tr :=
    released_of_ne (by simpa using hne)
  have hbetween : ∀ j, Between c j ↔ Between t.core j := by
    intro j
    by_cases hji : j = i
    · exact hji ▸ hsame
    · rw [Between, Between, hothers j hji]
  refine ⟨hlock, fun j hj => ?_, fun j hj => ?_, fun j hj => ?_, fun hno => ?_⟩
  · by_cases hji : j = i
    · subst hji
      exact hwaiting hj
    · have hwait : Waiting t.core j := by rwa [Waiting, Between, ← hothers j hji]
      exact (htodo j hji).trans (h.waiting j hwait)
  · by_cases hji : j = i
    · subst hji
      exact hleaving hj
    · exact (htodo j hji).trans (h.leaving j (hothers j hji ▸ hj))
  · have hsame : todo j = t.todo j := by
      by_cases hji : j = i
      · subst hji
        exact hkept hj
      · exact htodo j hji
    obtain ⟨pre, hpre, hdata⟩ := h.inside j ((hbetween j).mp hj)
    exact ⟨pre, hpre.trans (congrArg (pre ++ ·) hsame.symm), by rw [hreleased, hdata]⟩
  · rw [hreleased]
    exact h.idle fun j hj => hno j ((hbetween j).mpr hj)

/-- A core that gets the lock finds whole sections only. -/
theorem Guarded.Inv.enter {c : State ι} {i : ι} {e : Event} (h : Guarded.Inv work d tr t)
    (hlock : SpinLock.Inv (instrs (tr ++ [(i, some e)])) c) (hne : e ≠ .stlr)
    (hothers : ∀ j, j ≠ i → c.pc j = t.core.pc j) (howner : Owner t.core i)
    (hwait : Waiting t.core i) (hin : c.pc i = .critical) :
    Guarded.Inv work d (tr ++ [(i, some e)]) ⟨c, t.data, t.todo⟩ := by
  have hreleased : released (tr ++ [(i, some e)]) = released tr :=
    released_of_ne (by simpa using hne)
  have hempty : ∀ j, ¬ Between t.core j := fun j hj => hwait.2 (h.alone howner hj ▸ hj)
  have hjust : ∀ j, Between c j → j = i := by
    intro j hj
    by_contra hji
    refine hempty j ?_
    rwa [Between, ← hothers j hji]
  refine ⟨hlock, fun j hj => ?_, fun j hj => ?_, fun j hj => ?_, fun hno => ?_⟩
  · have hji : j ≠ i := fun heq => hj.2 (heq ▸ .inl hin)
    refine h.waiting j ?_
    rwa [Waiting, Between, ← hothers j hji]
  · obtain rfl := hjust j (.inr hj)
    rw [hin] at hj
    cases hj
  · obtain rfl := hjust j hj
    refine ⟨[], (h.waiting j hwait).symm, ?_⟩
    rw [hreleased]
    exact h.idle hempty
  · exact absurd (.inl hin) (hno i)

/-- A core that releases the lock leaves a whole section behind. -/
theorem Guarded.Inv.leave {c : State ι} {i : ι} (h : Guarded.Inv work d tr t)
    (hlock : SpinLock.Inv (instrs (tr ++ [(i, some .stlr)])) c)
    (hothers : ∀ j, j ≠ i → c.pc j = t.core.pc j) (hat : t.core.pc i = .stlr)
    (hout : c.pc i = .outside) :
    Guarded.Inv work d (tr ++ [(i, some .stlr)]) ⟨c, t.data, t.todo⟩ := by
  have hin : Between t.core i := .inr hat
  have hempty : ∀ j, ¬ Between c j := by
    intro j hj
    by_cases hji : j = i
    · subst hji
      simp [Between, hout] at hj
    · refine hji (h.alone (.inl hin) ?_)
      rwa [Between, ← hothers j hji]
  refine ⟨hlock, fun j hj => ?_, fun j hj => absurd (.inr hj) (hempty j),
    fun j hj => absurd hj (hempty j), fun _ => ?_⟩
  · have hji : j ≠ i := fun heq => hj.1 (heq ▸ hout)
    refine h.waiting j ?_
    rwa [Waiting, Between, ← hothers j hji]
  · obtain ⟨pre, hpre, hdata⟩ := h.inside i hin
    rw [h.leaving i hat, List.append_nil] at hpre
    rw [released_stlr, serial, List.foldl_append, hdata, ← hpre]
    rfl

/-- **Every step keeps the invariant.** -/
theorem Guarded.inv_step {t u : Guarded ι δ} {a : ι × Option Event} (h : Guarded.Inv work d tr t)
    (hstep : Guarded.Step work t a u) : Guarded.Inv work d (tr ++ [a]) u := by
  cases hstep with
  | @update i f fs inside next =>
      have hin : Between t.core i := .inl inside
      have hreleased : released (tr ++ [(i, none)]) = released tr := released_of_ne (by simp)
      refine ⟨?_, fun j hj => ?_, fun j hj => ?_, fun j hj => ?_, fun hno => absurd hin (hno i)⟩
      · rw [instrs_update]
        exact h.lock
      · have hne : j ≠ i := fun heq => hj.2 (heq ▸ hin)
        simp only [Function.update_of_ne hne]
        exact h.waiting j hj
      · have hne : j ≠ i := by
          rintro rfl
          rw [inside] at hj
          cases hj
        simp only [Function.update_of_ne hne]
        exact h.leaving j hj
      · obtain rfl : j = i := h.alone (.inl hin) hj
        obtain ⟨pre, hpre, hdata⟩ := h.inside j hj
        refine ⟨pre ++ [f], ?_, ?_⟩
        · simp only [Function.update_self]
          rw [hpre, next]
          simp
        · rw [hreleased, applyAll_append, ← hdata]
          rfl
  | @instr i e c step done =>
      obtain ⟨hothers, hcase⟩ := step_pc step
      have hlock : SpinLock.Inv (instrs (tr ++ [(i, some e)])) c := by
        rw [instrs_instr]
        exact SpinLock.inv_step h.lock step
      rcases hcase with ⟨rfl, hat, hwait⟩ | ⟨rfl, howner, hwait, hin⟩ | ⟨rfl, hat, hout⟩ |
        ⟨rfl, hat, hout⟩ | ⟨hnl, hns, hstay⟩
      · -- the section of the core lies before it
        rw [if_pos rfl]
        refine h.quiet hlock (by simp) hothers (fun j hj => Function.update_of_ne hj _ _)
          (iff_of_false hwait.2 (by simp [Between, hat])) (fun _ => Function.update_self ..)
          (fun hj => absurd (.inr hj) hwait.2) fun hj => absurd hj hwait.2
      · exact h.enter hlock (by simp) hothers howner hwait hin
      · rw [if_neg (by simp)]
        exact h.quiet hlock (by simp) hothers (fun _ _ => rfl)
          (iff_of_true (.inr hout) (.inl hat)) (fun hj => absurd (.inr hout) hj.2)
          (fun _ => done rfl) fun _ => rfl
      · exact h.leave hlock hothers hat hout
      · rw [if_neg hnl]
        rcases hstay with ⟨hwait, hwait'⟩ | hpc
        · exact h.quiet hlock hns hothers (fun _ _ => rfl) (iff_of_false hwait'.2 hwait.2)
            (fun _ => h.waiting i hwait) (fun hj => absurd (.inr hj) hwait'.2) fun _ => rfl
        · exact h.quiet hlock hns hothers (fun _ _ => rfl) (by rw [Between, Between, hpc])
            (fun hj => h.waiting i (by rwa [Waiting, Between, ← hpc]))
            (fun hj => h.leaving i (hpc ▸ hj)) fun _ => rfl

/-- The invariant holds in every run. -/
theorem Guarded.inv_run (hs : Initial s.core) (run : Run (Guarded.Step work) s tr t) :
    Guarded.Inv work s.data tr t :=
  run.invariant (Guarded.Inv work s.data) (Guarded.inv_initial hs)
    fun _ _ _ _ h hstep => Guarded.inv_step h hstep

/-- **The cores take turns.** In every interleaving, the data are those of whole sections, run
one after the other in the order in which the lock was released; if a core is inside, then a
first part of its section comes on top. -/
theorem guarded_serial (hs : Initial s.core) (run : Run (Guarded.Step work) s tr t) :
    (∀ i, Between t.core i → ∃ pre, pre <+: work i ∧
        t.data = applyAll pre (serial work (released tr) s.data)) ∧
      ((∀ i, ¬ Between t.core i) → t.data = serial work (released tr) s.data) := by
  have h := Guarded.inv_run hs run
  refine ⟨fun i hi => ?_, h.idle⟩
  obtain ⟨pre, hpre, hdata⟩ := h.inside i hi
  exact ⟨pre, ⟨_, hpre.symm⟩, hdata⟩

end Steps

/-! ### The lock is never stuck -/

section Available

variable [DecidableEq ι] (work : ι → List (δ → δ)) {t : Guarded ι δ} {i : ι}

/-- An instruction other than the calls, as a step. -/
theorem Guarded.Step.of_instr {e : Event} {c : State ι} (step : SpinLock.Step t.core (i, e) c)
    (hlock : e ≠ .lock) (hunlock : e ≠ .unlock) :
    Guarded.Step work t (i, some e) ⟨c, t.data, t.todo⟩ := by
  have h : Guarded.Step work t (i, some e) _ := .instr step fun he => absurd he hunlock
  rwa [if_neg hlock] at h

/-- A core that is inside can finish and release the lock, and the others stay where they
are. The induction is on what it still has to do. -/
theorem Guarded.drain (hin : Between t.core i) :
    ∃ tr u, Run (Guarded.Step work) t tr u ∧ u.core.lock = 0 ∧
      ∀ j, j ≠ i → u.core.pc j = t.core.pc j := by
  have hleave : ∀ t : Guarded ι δ, t.core.pc i = .stlr →
      ∃ tr u, Run (Guarded.Step work) t tr u ∧ u.core.lock = 0 ∧
        ∀ j, j ≠ i → u.core.pc j = t.core.pc j := by
    intro t hat
    refine ⟨_, _, Run.refl.snoc (.of_instr work (.stlr hat) (by simp) (by simp)), rfl,
      fun j hj => ?_⟩
    simp [State.goto, hj]
  rcases hin with hat | hat
  · obtain ⟨fs, hfs⟩ : ∃ fs, t.todo i = fs := ⟨_, rfl⟩
    induction fs generalizing t with
    | nil =>
        have hstep : Guarded.Step work t (i, some .unlock) _ := .instr (.unlock hat) fun _ => hfs
        obtain ⟨tr, u, hrun, hzero, hothers⟩ :=
          hleave ⟨t.core.goto i .stlr, t.data, t.todo⟩ (by simp [State.goto])
        refine ⟨_, u, (Run.refl.snoc hstep).trans hrun, hzero, fun j hj => ?_⟩
        rw [hothers j hj]
        simp [State.goto, hj]
    | cons f fs ih =>
        have hstep : Guarded.Step work t (i, none) _ := .update hat hfs
        obtain ⟨tr, u, hrun, hzero, hothers⟩ :=
          @ih ⟨t.core, f t.data, Function.update t.todo i fs⟩ hat (by simp)
        exact ⟨_, u, (Run.refl.snoc hstep).trans hrun, hzero, hothers⟩
  · exact hleave t hat

/-- A core that owns the lock is inside after at most one instruction. -/
theorem Guarded.inside_of_owner (hown : Owner t.core i) :
    ∃ tr u, Run (Guarded.Step work) t tr u ∧ Between u.core i ∧
      ∀ j, j ≠ i → u.core.pc j = t.core.pc j := by
  rcases hown with hin | ⟨hat, hz⟩
  · exact ⟨[], t, .refl, hin, fun _ _ => rfl⟩
  · refine ⟨_, _, Run.refl.snoc (.of_instr work (.cbnzStore hat) (by simp) (by simp)), .inl ?_,
      fun j hj => ?_⟩
    · simp [State.goto, hz]
    · simp [State.goto, hj]

/-- A core that waits and does not own the lock can go back to its `ldaxr`. -/
theorem Guarded.restart (hwait : Waiting t.core i) (hnot : ¬ Owner t.core i) :
    ∃ tr u, Run (Guarded.Step work) t tr u ∧ u.core.pc i = .ldaxr ∧
      u.core.lock = t.core.lock := by
  -- an exclusive store may always fail
  have hfail : ∀ t : Guarded ι δ, t.core.pc i = .stxr →
      ∃ tr u, Run (Guarded.Step work) t tr u ∧ u.core.pc i = .ldaxr ∧
        u.core.lock = t.core.lock := by
    intro t hat
    have h₁ := Guarded.Step.of_instr work (.stxrFailed hat) (by simp) (by simp)
    refine ⟨_, _, (Run.refl.snoc h₁).snoc
      (.of_instr work (.cbnzStore (i := i) (by simp [State.goto])) (by simp) (by simp)), ?_, rfl⟩
    simp [State.goto]
  have hmov : ∀ t : Guarded ι δ, t.core.pc i = .mov →
      ∃ tr u, Run (Guarded.Step work) t tr u ∧ u.core.pc i = .ldaxr ∧
        u.core.lock = t.core.lock := by
    intro t hat
    have h₁ := Guarded.Step.of_instr work (.mov hat) (by simp) (by simp)
    obtain ⟨tr, u, hrun, hpc, hlock⟩ := hfail
      ⟨{ t.core.goto i .stxr with lockRead := Function.update t.core.lockRead i 1 }, t.data, t.todo⟩
      (by simp [State.goto])
    exact ⟨_, u, (Run.refl.snoc h₁).trans hrun, hpc, hlock⟩
  cases hpc : t.core.pc i with
  | outside => exact absurd hpc hwait.1
  | critical => exact absurd (.inl hpc) hwait.2
  | stlr => exact absurd (.inr hpc) hwait.2
  | ldaxr => exact ⟨[], t, .refl, hpc, rfl⟩
  | mov => exact hmov t hpc
  | stxr => exact hfail t hpc
  | cbnzRead =>
      have h₁ := Guarded.Step.of_instr work (.cbnzRead hpc) (by simp) (by simp)
      by_cases hz : t.core.lockRead i = 0#32
      · obtain ⟨tr, u, hrun, hpc, hlock⟩ := hmov
          ⟨t.core.goto i (if t.core.lockRead i ≠ 0 then .ldaxr else .mov), t.data, t.todo⟩
          (by simp [State.goto, hz])
        exact ⟨_, u, (Run.refl.snoc h₁).trans hrun, hpc, hlock⟩
      · exact ⟨_, _, Run.refl.snoc h₁, by simp [State.goto, hz], rfl⟩
  | cbnzStore =>
      have hz : t.core.storeResult i ≠ 0#32 := fun hz => hnot (.inr ⟨hpc, hz⟩)
      have h₁ := Guarded.Step.of_instr work (.cbnzStore hpc) (by simp) (by simp)
      exact ⟨_, _, Run.refl.snoc h₁, by simp [State.goto, hz], rfl⟩

/-- A core at its `ldaxr` gets a lock that is free. -/
theorem Guarded.acquire (hat : t.core.pc i = .ldaxr) (hfree : t.core.lock = 0) :
    ∃ tr u, Run (Guarded.Step work) t tr u ∧ u.core.pc i = .critical := by
  have h₁ := Guarded.Step.of_instr work (.ldaxr hat) (by simp) (by simp)
  have h₂ := (Run.refl.snoc h₁).snoc
    (.of_instr work (.cbnzRead (i := i) (by simp [State.goto])) (by simp) (by simp))
  have h₃ := h₂.snoc
    (.of_instr work (.mov (i := i) (by simp [State.goto, hfree])) (by simp) (by simp))
  have h₄ := h₃.snoc (.of_instr work (.stxrStored (i := i) (by simp [State.goto])
    (by simp [State.goto])) (by simp) (by simp))
  have h₅ := h₄.snoc
    (.of_instr work (.cbnzStore (i := i) (by simp [State.goto])) (by simp) (by simp))
  exact ⟨_, _, h₅, by simp [State.goto]⟩

/-- **The lock is never stuck.** In every state that any number of cores can reach, and for every
core that waits in `lock()`, there is a way on in which the core gets the lock. -/
theorem lock_available {s : Guarded ι δ} {tr : List (ι × Option Event)} (hs : Initial s.core)
    (run : Run (Guarded.Step work) s tr t) (hwait : Waiting t.core i) :
    ∃ tr' u, Run (Guarded.Step work) t tr' u ∧ u.core.pc i = .critical := by
  have h := Guarded.inv_run hs run
  -- from a free lock
  have hfree : ∀ tr' (u : Guarded ι δ), Run (Guarded.Step work) t tr' u → Waiting u.core i →
      u.core.lock = 0 → ∃ tr'' v, Run (Guarded.Step work) t tr'' v ∧ v.core.pc i = .critical := by
    intro tr' u hu hwaits hzero
    have hinv := (Guarded.inv_run hs (run.trans hu)).lock
    have hnot : ¬ Owner u.core i := fun hown => by
      have hone := hinv.held i hown
      rw [hzero] at hone
      exact absurd hone (by decide)
    obtain ⟨tr₁, v, hv, hpc, hlock⟩ := Guarded.restart work hwaits hnot
    obtain ⟨tr₂, w, hw, hin⟩ := Guarded.acquire work hpc (hlock.trans hzero)
    exact ⟨_, w, (hu.trans hv).trans hw, hin⟩
  by_cases hown : Owner t.core i
  · -- its store has succeeded, one branch is left
    rcases hown with hin | ⟨hat, hz⟩
    · exact absurd hin hwait.2
    · refine ⟨_, _, Run.refl.snoc (.of_instr work (.cbnzStore hat) (by simp) (by simp)), ?_⟩
      simp [State.goto, hz]
  · by_cases hother : ∃ j, Owner t.core j
    · obtain ⟨j, hj⟩ := hother
      have hne : i ≠ j := fun heq => hown (heq ▸ hj)
      obtain ⟨tr₁, v, hv, hin, hv'⟩ := Guarded.inside_of_owner work hj
      obtain ⟨tr₂, u, hu, hzero, hu'⟩ := Guarded.drain work hin
      refine hfree _ u (hv.trans hu) ?_ hzero
      rwa [Waiting, Between, hu' i hne, hv' i hne]
    · have hzero := h.lock.free fun j hj => hother ⟨j, hj⟩
      exact hfree [] t .refl hwait hzero

end Available

/-! ### Lines -/

section Lines

variable {H : Type} (P : Pl011 H) (fuel : ℕ)

/-- Every core prints its line, character by character. A call that does not return leaves
nothing to the calls after it. -/
def printing (line : ι → List UInt8) (i : ι) : List (Exec (Uart H) → Exec (Uart H)) :=
  (line i).map fun c u => u >>= sendCharAsync P fuel c

theorem applyAll_printing (cs : List UInt8) (d : Exec (Uart H)) :
    applyAll (cs.map fun c u => u >>= sendCharAsync P fuel c) d = d >>= sendChars P fuel cs := by
  induction cs generalizing d with
  | nil => exact bind_ok.symm
  | cons c cs ih =>
      have hrest := ih (d >>= sendCharAsync P fuel c)
      rw [bind_assoc] at hrest
      exact hrest

theorem serial_printing (line : ι → List UInt8) (cores : List ι) (d : Exec (Uart H)) :
    serial (printing P fuel line) cores d =
      d >>= cores.foldlM fun u i => sendChars P fuel (line i) u := by
  induction cores generalizing d with
  | nil => exact bind_ok.symm
  | cons i cores ih =>
      have hfirst : serial (printing P fuel line) (i :: cores) d =
          serial (printing P fuel line) cores (applyAll (printing P fuel line i) d) := rfl
      rw [hfirst, ih, printing, applyAll_printing, bind_assoc]
      simp only [List.foldlM_cons]

/-- The line that `secondary_kern_main` prints. -/
def coreLine (cpuId : UInt64) : List UInt8 :=
  cstr "Running core " ++ (intText (int.wrap cpuId.toNat) ++ [10])

/-- It is what the call of `kprintf` sends, character by character. -/
theorem kprintf_coreLine (strings : UInt64 → List UInt8) (cpuId : UInt64) (u u' : Uart H) :
    kprintf P strings fuel "Running core %d\n" [cpuId] u = .ok u' ↔
      sendChars P fuel (coreLine cpuId) u = .ok u' := by
  have hformat : cstr "Running core %d\n" =
      cstr "Running core " ++ (ascii '%' :: ascii 'd' :: [10]) := by decide
  have hlit := @format_plain strings (cstr "Running core ") (by decide) (by decide)
    (ascii '%' :: ascii 'd' :: [10])
  have hint := @format_convert strings (ascii 'd') (by decide) (by decide) [10]
  have hend := @textOf_plain strings [10] (by decide) (by decide) []
  have hneeded : needed (pieces (cstr "Running core %d\n")) = 1 := by
    rw [hformat, hlit.1, hint.1, hend.1]
  have htext : textOf strings (pieces (cstr "Running core %d\n")) [cpuId] = coreLine cpuId := by
    rw [hformat, hlit.2, hint.2, hend.2, coreLine]
    rfl
  rw [kprintf, vkprintf_prints, hneeded, htext]
  simp

theorem foldlM_coreLine (strings : UInt64 → List UInt8) (cpuId : ι → UInt64) (cores : List ι)
    (u u' : Uart H) :
    cores.foldlM (fun u i => kprintf P strings fuel "Running core %d\n" [cpuId i] u) u = .ok u' ↔
      cores.foldlM (fun u i => sendChars P fuel (coreLine (cpuId i)) u) u = .ok u' := by
  induction cores generalizing u with
  | nil => simp only [List.foldlM_nil]
  | cons i cores ih => simp only [List.foldlM_cons, bind_eq_ok, ih, kprintf_coreLine]

variable {P fuel} [DecidableEq ι] {s t : Guarded ι (Exec (Uart H))}
  {tr : List (ι × Option Event)}

theorem printed_whole {line : ι → List UInt8} (hs : Initial s.core)
    (run : Run (Guarded.Step (printing P fuel line)) s tr t) :
    ∃ part, t.data = (s.data >>= (released tr).foldlM fun u i => sendChars P fuel (line i) u) >>=
        sendChars P fuel part ∧
      (∀ i, Between t.core i → part <+: line i) ∧ ((∀ i, ¬ Between t.core i) → part = []) := by
  obtain ⟨hinside, hidle⟩ := guarded_serial hs run
  simp only [serial_printing] at hinside hidle
  by_cases hno : ∀ i, ¬ Between t.core i
  · refine ⟨[], ?_, fun i hi => absurd hi (hno i), fun _ => rfl⟩
    rw [hidle hno]
    exact bind_ok.symm
  · simp only [not_forall, not_not] at hno
    obtain ⟨i, hi⟩ := hno
    obtain ⟨pre, hpre, hdata⟩ := hinside i hi
    have hn := List.prefix_iff_eq_take.mp hpre
    rw [printing, ← List.map_take] at hn
    rw [hn, applyAll_printing] at hdata
    refine ⟨_, hdata, fun j hj => ?_, fun h => absurd hi (h i)⟩
    obtain rfl : j = i := (Guarded.inv_run hs run).alone (.inl hi) hj
    exact List.take_prefix _ _

/-- **Lines come out whole**, as long as no interrupt is taken and nothing else prints. However
many cores print their line at once and however their instructions interleave, the driver and
the device are as after whole calls of `kprintf`, one after the other in the order in which the
cores release the lock, and then a first part of the line of the core that is inside, if there
is one. -/
theorem lines_whole (strings : UInt64 → List UInt8) (cpuId : ι → UInt64) (hs : Initial s.core)
    (run : Run (Guarded.Step (printing P fuel fun i => coreLine (cpuId i))) s tr t) {u : Uart H}
    (hu : s.data = .ok u) :
    ∃ part, (∀ u', t.data = .ok u' ↔ ∃ v, (released tr).foldlM
        (fun u i => kprintf P strings fuel "Running core %d\n" [cpuId i] u) u = .ok v ∧
          sendChars P fuel part v = .ok u') ∧
      (∀ i, Between t.core i → part <+: coreLine (cpuId i)) ∧
      ((∀ i, ¬ Between t.core i) → part = []) := by
  obtain ⟨part, hdata, hparts⟩ := printed_whole hs run
  refine ⟨part, fun u' => ?_, hparts⟩
  rw [hdata, hu, ok_bind, bind_eq_ok]
  simp only [foldlM_coreLine]

end Lines

/-! ### Two cores -/

/-- Two cores before either has called `lock()`, with a device that is ready. -/
def twoGuarded : Guarded Bool (Exec (Uart Answers)) :=
  ⟨twoIdle, .ok { idleUart with hw := readyAnswers }, fun _ => []⟩

def twoIds (b : Bool) : UInt64 := if b then 1 else 0

/-- What the cores 0 and 1 print. -/
def twoLines : Bool → List (Exec (Uart Answers) → Exec (Uart Answers)) :=
  printing answering 1 fun b => coreLine (twoIds b)

/-- Both call `lock()`, and one of them gets the lock. -/
theorem twoGuarded_run : ∃ t, Run (Guarded.Step twoLines) twoGuarded
    [(true, some .lock), (false, some .lock), (true, some .ldaxr), (true, some .cbnzRead),
      (true, some .mov), (true, some (.stxr true)), (true, some .cbnzStore)] t ∧
    Between t.core true ∧ Waiting t.core false := by
  have run := (((((((Run.refl : Run (Guarded.Step twoLines) twoGuarded [] twoGuarded).snoc
    (.instr (.lock (i := true) rfl) (by simp))).snoc
    (.instr (.lock (i := false) rfl) (by simp))).snoc
    (.instr (.ldaxr (i := true) rfl) (by simp))).snoc
    (.instr (.cbnzRead (i := true) rfl) (by simp))).snoc
    (.instr (.mov (i := true) rfl) (by simp))).snoc
    (.instr (.stxrStored (i := true) rfl rfl) (by simp))).snoc
    (.instr (.cbnzStore (i := true) rfl) (by simp))
  exact ⟨_, run, .inl rfl, by simp [Waiting, Between, State.goto, twoGuarded, twoIdle]⟩

theorem twoGuarded_initial : Initial twoGuarded.core := ⟨rfl, fun _ => rfl⟩

/-- Whatever the core inside has printed so far is a first part of its line. -/
theorem lines_whole_two : ∃ tr t part, Run (Guarded.Step twoLines) twoGuarded tr t ∧
    Between t.core true ∧ part <+: coreLine 1 ∧ ∀ u', t.data = .ok u' ↔
      sendChars answering 1 part { idleUart with hw := readyAnswers } = .ok u' := by
  obtain ⟨t, run, hin, -⟩ := twoGuarded_run
  obtain ⟨part, hdata, hpart, -⟩ := lines_whole (fun _ => []) twoIds twoGuarded_initial run rfl
  refine ⟨_, t, part, run, hin, hpart true hin, fun u' => ?_⟩
  rw [hdata u']
  simp [released]

/-- The core that waits can still get the lock. -/
theorem lock_available_two : ∃ tr t, Run (Guarded.Step twoLines) twoGuarded tr t ∧
    Between t.core true ∧
      ∃ tr' u, Run (Guarded.Step twoLines) t tr' u ∧ u.core.pc false = .critical := by
  obtain ⟨t, run, hin, hwait⟩ := twoGuarded_run
  exact ⟨_, t, run, hin, lock_available _ twoGuarded_initial run hwait⟩

end SpinLock

end Floss
