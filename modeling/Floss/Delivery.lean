import Floss.Exception
import Floss.GicRegisters
import Floss.Runs

/-!
# Interrupt Delivery

What happens to an interrupt from the moment a device raises it. The controller forwards it to
a core; the core takes it and calls `acknowledge_interrupt`, which makes it active, then
`irq_handler`, and hands what that returns to `end_of_interrupt` (`src/exceptions.S`). A core
takes no further interrupt until it has returned from its handler. Devices and cores take
their steps in any order (`Delivery.Step`).

Which interrupts a controller forwards to which core is a parameter (`Controller`). Writing an
identifier to `EOIR` that the core has not acknowledged is allowed in the model and may do
anything to the controller; that it does not happen is a result.

* `interrupts_retired`: every core retires what it acknowledged, in order and each once; what
  is active is what some core is serving, so no interrupt stays active, and no two cores serve
  the same shared interrupt;
* `DriverV2.shared_forwarded_iff`: what the GICv2 driver makes of the registers, whatever
  they held before: of the shared interrupts, those that were initialised, on the first core;
* `shared_on_first_core`: hence no other core ever serves one.
-/

namespace Floss

/-! ### Acknowledge, handle, retire -/

/-- The identifiers that name no interrupt. -/
def Special (id : ℕ) : Prop := 1020 ≤ id ∧ id < 1024

/-- An interrupt controller: to which cores it may forward an interrupt that is pending, what
`initialize_core_specific` does to it, and which identifier a value of `IAR` holds. -/
structure Controller (ι G : Type) where
  forwards : G → ι → ℕ → Prop
  start : ι → G → G
  intid : UInt32 → ℕ
  regular : ∀ {g c id}, forwards g c id → ¬ Special id

/-- An interrupt as a core names it. The first 32 belong to the core, the others are shared. -/
def line {ι : Type} (c : ι) (id : ℕ) : Option ι × ℕ := (if id < 32 then some c else none, id)

/-- `irq_handler`, called with `iar`, may return `id`. -/
def IrqReturns (iar id : UInt32) : Prop :=
  ∃ (H : Type) (P : Pl011 H) (strings : UInt64 → List UInt8) (fuel : ℕ) (cpu : UInt64)
    (uartIntid : UInt32) (t t' : Timer) (u u' : Uart H),
    irqHandler P strings fuel cpu uartIntid iar t u = .ok (id, t', u')

/-- Whatever it is given, the handler gives it back. -/
theorem IrqReturns.eq {iar id : UInt32} (h : IrqReturns iar id) : id = iar := by
  obtain ⟨H, P, strings, fuel, cpu, uartIntid, t, t', u, u', h⟩ := h
  -- every branch ends so
  have hreturn : ∀ {t₁ : Timer} {u₁ : Uart H},
      (pure (iar, t₁, u₁) : Exec (UInt32 × Timer × Uart H)) = .ok (id, t', u') → id = iar :=
    fun heq => (Prod.mk.inj (Except.ok.inj heq)).1.symm
  rw [irqHandler] at h
  obtain ⟨v, -, h⟩ := bind_eq_ok.1 h
  by_cases hspurious : iar = 1022 ∨ iar = 1023
  · rw [if_pos hspurious] at h
    exact hreturn h
  rw [if_neg hspurious] at h
  by_cases htimer : iar = 30
  · rw [if_pos htimer] at h
    obtain ⟨w, -, h⟩ := bind_eq_ok.1 h
    exact hreturn h
  rw [if_neg htimer] at h
  by_cases huart : iar = uartIntid
  · rw [if_pos huart] at h
    obtain ⟨w, -, h⟩ := bind_eq_ok.1 h
    exact hreturn h
  · rw [if_neg huart] at h
    obtain ⟨w, -, h⟩ := bind_eq_ok.1 h
    exact hreturn h

/-- Where a core is: before `unmask_irqs`, in code that may be interrupted, after
`acknowledge_interrupt` returned `iar`, or after `irq_handler` returned `id`. -/
inductive Phase
  | masked
  | running
  | acknowledged (iar : UInt32)
  | handled (id : UInt32)
  deriving DecidableEq, Repr

/-- What the core is busy with. -/
def Phase.serving : Phase → Option UInt32
  | .masked => none
  | .running => none
  | .acknowledged iar => some iar
  | .handled id => some id

@[simp] theorem Phase.serving_masked : Phase.masked.serving = none := rfl
@[simp] theorem Phase.serving_running : Phase.running.serving = none := rfl
@[simp] theorem Phase.serving_acknowledged (iar : UInt32) :
    (Phase.acknowledged iar).serving = some iar := rfl
@[simp] theorem Phase.serving_handled (id : UInt32) :
    (Phase.handled id).serving = some id := rfl

namespace Delivery

inductive Event (ι : Type)
  | raise (l : Option ι × ℕ)
  | start (c : ι)
  | acknowledge (c : ι) (iar : UInt32)
  | handle (c : ι)
  | retire (c : ι) (id : UInt32)
  deriving DecidableEq, Repr

end Delivery

/-- The controller, the cores, and which interrupts are pending and active, the latter with
the core that acknowledged them. -/
structure Delivery (ι G : Type) where
  gic : G
  phase : ι → Phase
  pending : Option ι × ℕ → Bool
  active : Option ι × ℕ → Option ι

namespace Delivery

variable {ι G : Type} [DecidableEq ι] (C : Controller ι G)

/-- **One step**: a device raises an interrupt, a core initialises its part and unmasks
interrupts, or a core calls one of the three functions of its interrupt handler. -/
inductive Step : Delivery ι G → Event ι → Delivery ι G → Prop
  | raise {s : Delivery ι G} (l : Option ι × ℕ) :
      Step s (.raise l) { s with pending := Function.update s.pending l true }
  | start {s : Delivery ι G} {c : ι} (here : s.phase c = .masked) :
      Step s (.start c)
        { s with gic := C.start c s.gic, phase := Function.update s.phase c .running }
  | acknowledge {s : Delivery ι G} {c : ι} {iar : UInt32} (here : s.phase c = .running)
      (forwarded : C.forwards s.gic c (C.intid iar))
      (pending : s.pending (line c (C.intid iar)) = true)
      (inactive : s.active (line c (C.intid iar)) = none) :
      Step s (.acknowledge c iar)
        { s with
          phase := Function.update s.phase c (.acknowledged iar)
          pending := Function.update s.pending (line c (C.intid iar)) false
          active := Function.update s.active (line c (C.intid iar)) (some c) }
  /-- the interrupt that was forwarded is no longer there -/
  | spurious {s : Delivery ι G} {c : ι} {iar : UInt32} (here : s.phase c = .running)
      (special : Special (C.intid iar)) :
      Step s (.acknowledge c iar)
        { s with phase := Function.update s.phase c (.acknowledged iar) }
  | handle {s : Delivery ι G} {c : ι} {iar id : UInt32} (here : s.phase c = .acknowledged iar)
      (returns : IrqReturns iar id) :
      Step s (.handle c) { s with phase := Function.update s.phase c (.handled id) }
  | retire {s : Delivery ι G} {c : ι} {id : UInt32} (here : s.phase c = .handled id)
      (regular : ¬ Special (C.intid id)) (mine : s.active (line c (C.intid id)) = some c) :
      Step s (.retire c id)
        { s with
          phase := Function.update s.phase c .running
          active := Function.update s.active (line c (C.intid id)) none }
  /-- the controller ignores these -/
  | ignored {s : Delivery ι G} {c : ι} {id : UInt32} (here : s.phase c = .handled id)
      (special : Special (C.intid id)) :
      Step s (.retire c id) { s with phase := Function.update s.phase c .running }
  /-- what the controller does is not specified -/
  | stray {s : Delivery ι G} {c : ι} {id : UInt32} (here : s.phase c = .handled id)
      (regular : ¬ Special (C.intid id)) (other : s.active (line c (C.intid id)) ≠ some c)
      (active : Option ι × ℕ → Option ι) :
      Step s (.retire c id)
        { s with phase := Function.update s.phase c .running, active := active }

/-- No core has unmasked interrupts, and none is active. -/
structure Initial (s : Delivery ι G) : Prop where
  masked : ∀ c, s.phase c = .masked
  inactive : ∀ l, s.active l = none

/-- What core `c` has acknowledged. -/
def acknowledged (c : ι) (tr : List (Event ι)) : List UInt32 :=
  tr.filterMap fun
    | .acknowledge c' iar => if c' = c then some iar else none
    | _ => none

/-- What it has retired. -/
def retired (c : ι) (tr : List (Event ι)) : List UInt32 :=
  tr.filterMap fun
    | .retire c' id => if c' = c then some id else none
    | _ => none

/-- The active interrupts are those that the cores are serving, and each core has retired all
but the one it is serving. -/
structure Inv (tr : List (Event ι)) (s : Delivery ι G) : Prop where
  active : ∀ l c, s.active l = some c ↔
    ∃ iar, (s.phase c).serving = some iar ∧ ¬ Special (C.intid iar) ∧ line c (C.intid iar) = l
  cycle : ∀ c, acknowledged c tr = retired c tr ++ (s.phase c).serving.toList

variable {C} {s s' t : Delivery ι G} {tr : List (Event ι)}

/-- A core that goes on serving what it was. -/
theorem serving_update {phase : ι → Phase} {c : ι} {p : Phase}
    (h : p.serving = (phase c).serving) (d : ι) :
    (Function.update phase c p d).serving = (phase d).serving := by
  rcases eq_or_ne d c with rfl | hd
  · rw [Function.update_self, h]
  · rw [Function.update_of_ne hd]

/-- A step that changes neither what is active nor which interrupts are served. -/
theorem Inv.active_of_same (h : Inv C tr s) (hactive : s'.active = s.active)
    (hserving : ∀ c iar, ¬ Special (C.intid iar) →
      ((s'.phase c).serving = some iar ↔ (s.phase c).serving = some iar)) (l : Option ι × ℕ)
    (c : ι) : s'.active l = some c ↔ ∃ iar, (s'.phase c).serving = some iar ∧
      ¬ Special (C.intid iar) ∧ line c (C.intid iar) = l := by
  rw [hactive, h.active]
  refine exists_congr fun iar => ⟨fun ⟨hs, hr, hl⟩ => ?_, fun ⟨hs, hr, hl⟩ => ?_⟩
  · exact ⟨(hserving c iar hr).mpr hs, hr, hl⟩
  · exact ⟨(hserving c iar hr).mp hs, hr, hl⟩

/-- What a step appends to the history of a core accounts for what becomes of its phase. -/
theorem Inv.cycle_snoc (h : Inv C tr s) {e : Event ι}
    (hstep : ∀ c, (s.phase c).serving.toList ++ acknowledged c [e] =
      retired c [e] ++ (s'.phase c).serving.toList) (c : ι) :
    acknowledged c (tr ++ [e]) = retired c (tr ++ [e]) ++ (s'.phase c).serving.toList := by
  have hsplit : acknowledged c (tr ++ [e]) = acknowledged c tr ++ acknowledged c [e] ∧
      retired c (tr ++ [e]) = retired c tr ++ retired c [e] :=
    ⟨List.filterMap_append, List.filterMap_append⟩
  rw [hsplit.1, hsplit.2, h.cycle c, List.append_assoc, hstep c, List.append_assoc]

/-- An interrupt becomes active with the core that acknowledges it. -/
theorem Inv.active_acknowledge (h : Inv C tr s) {c : ι} {iar : UInt32}
    (hnone : (s.phase c).serving = none) (hreg : ¬ Special (C.intid iar))
    (hinactive : s.active (line c (C.intid iar)) = none) (l : Option ι × ℕ) (d : ι) :
    Function.update s.active (line c (C.intid iar)) (some c) l = some d ↔
      ∃ i, (Function.update s.phase c (.acknowledged iar) d).serving = some i ∧
        ¬ Special (C.intid i) ∧ line d (C.intid i) = l := by
  rcases eq_or_ne d c with rfl | hd
  · -- the core itself, which was serving nothing
    have hold : s.active l ≠ some d := fun hl => by
      obtain ⟨i, hi, -⟩ := (h.active l d).mp hl
      rw [hnone] at hi
      cases hi
    rw [Function.update_self]
    constructor
    · intro hl
      refine ⟨iar, rfl, hreg, ?_⟩
      by_contra hne
      rw [Function.update_of_ne (Ne.symm hne)] at hl
      exact hold hl
    · rintro ⟨i, hi, -, rfl⟩
      obtain rfl : iar = i := Option.some.inj hi
      rw [Function.update_self]
  · rw [Function.update_of_ne hd, ← h.active l d]
    rcases eq_or_ne l (line c (C.intid iar)) with rfl | hl
    · rw [Function.update_self, hinactive]
      simp [hd.symm]
    · rw [Function.update_of_ne hl]

/-- It is no longer active when the core has retired it. -/
theorem Inv.active_retire (h : Inv C tr s) {c : ι} {id : UInt32}
    (hserving : (s.phase c).serving = some id) (hreg : ¬ Special (C.intid id))
    (l : Option ι × ℕ) (d : ι) :
    Function.update s.active (line c (C.intid id)) none l = some d ↔
      ∃ i, (Function.update s.phase c .running d).serving = some i ∧
        ¬ Special (C.intid i) ∧ line d (C.intid i) = l := by
  have hmine := (h.active (line c (C.intid id)) c).mpr ⟨id, hserving, hreg, rfl⟩
  rcases eq_or_ne d c with rfl | hd
  · rw [Function.update_self]
    constructor
    · intro hl
      rcases eq_or_ne l (line d (C.intid id)) with rfl | hne
      · rw [Function.update_self] at hl
        cases hl
      · -- it was serving one interrupt only
        rw [Function.update_of_ne hne] at hl
        obtain ⟨i, hi, -, rfl⟩ := (h.active l d).mp hl
        obtain rfl : id = i := Option.some.inj (hserving.symm.trans hi)
        exact absurd rfl hne
    · rintro ⟨i, hi, -⟩
      cases hi
  · rw [Function.update_of_ne hd, ← h.active l d]
    rcases eq_or_ne l (line c (C.intid id)) with rfl | hl
    · rw [Function.update_self, hmine]
      simp [hd.symm]
    · rw [Function.update_of_ne hl]

/-- **Every step keeps the invariant.** -/
theorem Inv.step (h : Inv C tr s) {e : Event ι} (hstep : Step C s e s') :
    Inv C (tr ++ [e]) s' := by
  cases hstep with
  | raise l =>
      exact ⟨h.active, h.cycle_snoc fun c => by simp [acknowledged, retired]⟩
  | @start c here =>
      have hsame := @serving_update _ _ s.phase c .running (by simp [here])
      refine ⟨h.active_of_same rfl fun d i _ => by rw [hsame d], h.cycle_snoc fun d => ?_⟩
      simp [acknowledged, retired, hsame d]
  | @acknowledge c iar here forwarded pending inactive =>
      have hnone : (s.phase c).serving = none := by simp [here]
      refine ⟨h.active_acknowledge hnone (C.regular forwarded) inactive, h.cycle_snoc fun d => ?_⟩
      rcases eq_or_ne d c with rfl | hd
      · simp [acknowledged, retired, hnone]
      · simp [acknowledged, retired, hd, hd.symm]
  | @spurious c iar here special =>
      have hnone : (s.phase c).serving = none := by simp [here]
      refine ⟨h.active_of_same rfl fun d i hi => ?_, h.cycle_snoc fun d => ?_⟩
      · rcases eq_or_ne d c with rfl | hd
        · have hne : iar ≠ i := fun heq => hi (heq ▸ special)
          simp [hnone, hne]
        · simp [hd]
      · rcases eq_or_ne d c with rfl | hd
        · simp [acknowledged, retired, hnone]
        · simp [acknowledged, retired, hd, hd.symm]
  | @handle c iar id here returns =>
      obtain rfl := returns.eq
      have hsame := @serving_update _ _ s.phase c (.handled id) (by simp [here])
      refine ⟨h.active_of_same rfl fun d i _ => by rw [hsame d], h.cycle_snoc fun d => ?_⟩
      simp [acknowledged, retired, hsame d]
  | @retire c id here regular mine =>
      have hserving : (s.phase c).serving = some id := by simp [here]
      refine ⟨h.active_retire hserving regular, h.cycle_snoc fun d => ?_⟩
      rcases eq_or_ne d c with rfl | hd
      · simp [acknowledged, retired, hserving]
      · simp [acknowledged, retired, hd, hd.symm]
  | @ignored c id here special =>
      have hserving : (s.phase c).serving = some id := by simp [here]
      refine ⟨h.active_of_same rfl fun d i hi => ?_, h.cycle_snoc fun d => ?_⟩
      · rcases eq_or_ne d c with rfl | hd
        · have hne : id ≠ i := fun heq => hi (heq ▸ special)
          simp [hserving, hne]
        · simp [hd]
      · rcases eq_or_ne d c with rfl | hd
        · simp [acknowledged, retired, hserving]
        · simp [acknowledged, retired, hd, hd.symm]
  | @stray c id here regular other active =>
      have hserving : (s.phase c).serving = some id := by simp [here]
      exact absurd ((h.active _ c).mpr ⟨id, hserving, regular, rfl⟩) other

theorem Initial.inv (h : Initial s) : Inv C [] s where
  active l c := by simp [h.inactive l, h.masked c]
  cycle c := by simp [acknowledged, retired, h.masked c]

theorem inv_run (h : Initial s) (run : Run (Step C) s tr t) : Inv C tr t :=
  run.invariant (Inv C) h.inv fun _ _ _ _ hinv hstep => hinv.step hstep

/-- **Every interrupt is retired once.** In every state that devices and cores reach by steps
in any order, a core has retired what it acknowledged, in that order, except for the interrupt
that it is serving; the active interrupts are those that are being served; and a shared one is
served by one core at most. -/
theorem interrupts_retired (hs : Initial s) (run : Run (Step C) s tr t) :
    (∀ c, acknowledged c tr = retired c tr ++ (t.phase c).serving.toList) ∧
      (∀ l, t.active l ≠ none ↔ ∃ c iar, (t.phase c).serving = some iar ∧
        ¬ Special (C.intid iar) ∧ line c (C.intid iar) = l) ∧
      ∀ c c' iar iar', (t.phase c).serving = some iar → (t.phase c').serving = some iar' →
        C.intid iar = C.intid iar' → 32 ≤ C.intid iar → ¬ Special (C.intid iar) → c = c' := by
  have h := inv_run hs run
  refine ⟨h.cycle, fun l => ?_, fun c c' iar iar' hc hc' hid hshared hreg => ?_⟩
  · simp only [Option.ne_none_iff_exists', h.active]
  · -- both cores name the same line
    have hline : line c' (C.intid iar') = line c (C.intid iar) := by
      rw [line, line, ← hid, if_neg (by omega), if_neg (by omega)]
    have hc₁ := (h.active _ c).mpr ⟨iar, hc, hreg, rfl⟩
    have hc₂ := (h.active _ c').mpr ⟨iar', hc', hid ▸ hreg, hline⟩
    exact Option.some.inj (hc₁.symm.trans hc₂)

end Delivery

/-! ### The shared interrupts of a GICv2 -/

namespace DriverV2

section SetUp

variable {ι : Type} [DecidableEq ι]

/-- `ITLinesNumber`: there are 32 interrupts more than 32 times this number. -/
def itLines (g : State ι) : ℕ := (g.typer &&& gicdTyperItLinesNumberMask).toNat

/-- What `kern_main` does to the distributor: `initialize()`, then `initialize_interrupt()` for
one interrupt after the other. -/
def setUp (core : ι) (calls : List (ℕ × UInt8)) (g : State ι) : State ι :=
  initializeInterrupts core calls (initializeDriver core g)

/-- Word `n` of `ICENABLER`: one bits disable. -/
theorem writeDistributor_icenabler (core : ι) {n : ℕ} (hn : n < 32) (v : BitVec 32)
    (g : State ι) : writeDistributor core (gicdIcenabler + n * 4) v g =
      { g with
        enabled := writeBanked (n == 0) g.enabled core n (g.enabled core n &&& ~~~v) } := by
  have hctlr : gicdIcenabler + n * 4 ≠ gicdCtlr := by
    norm_num [gicdIcenabler, gicdCtlr]
  have hgroup : ¬ (gicdIgroupr ≤ gicdIcenabler + n * 4 ∧
      gicdIcenabler + n * 4 < gicdIsenabler) := by
    norm_num [gicdIcenabler, gicdIsenabler]
    omega
  have hset : ¬ (gicdIsenabler ≤ gicdIcenabler + n * 4 ∧
      gicdIcenabler + n * 4 < gicdIcenabler) := by omega
  have hrange : gicdIcenabler ≤ gicdIcenabler + n * 4 ∧ gicdIcenabler + n * 4 < 0x200 := by
    norm_num [gicdIcenabler]
    omega
  have hindex : (gicdIcenabler + n * 4 - gicdIcenabler) / 4 = n := by omega
  rw [writeDistributor, if_neg hctlr, if_neg hgroup, if_neg hset, if_pos hrange, hindex]

/-- One iteration of the loop of `initialize_gic_distributor`. -/
theorem resetWord_eq (core : ι) {n : ℕ} (hn : n < 32) (g : State ι) :
    resetWord core g n =
      { g with
        igroupr := writeBanked (n == 0) g.igroupr core n 0xFFFFFFFF
        enabled := writeBanked (n == 0) g.enabled core n 0 } := by
  have hclear : ∀ x : BitVec 32, x &&& ~~~0xFFFFFFFF = 0 := fun x => by simp
  rw [resetWord, writeDistributor_igroupr core hn, writeDistributor_icenabler core hn, hclear]

/-- Of the shared interrupts, the first `k` words are in Group 1 and disabled; nothing else has
changed. -/
structure WordsReset (k : ℕ) (g g' : State ι) : Prop where
  igroupr : ∀ c n, n ≠ 0 → g'.igroupr c n = if n < k then 0xFFFFFFFF else g.igroupr c n
  enabled : ∀ c n, n ≠ 0 → g'.enabled c n = if n < k then 0 else g.enabled c n
  typer : g'.typer = g.typer
  ipriorityr : g'.ipriorityr = g.ipriorityr
  itargetsr : g'.itargetsr = g.itargetsr

/-- A word that is not banked, written. -/
theorem writeBanked_word {α : Type} {f : ι → ℕ → α} {core c : ι} {n k : ℕ} {v : α}
    (hn : n ≠ 0) : writeBanked (k == 0) f core k v c n = if n = k then v else f c n := by
  rcases eq_or_ne n k with rfl | hne
  · simp [writeBanked, hn]
  · simp [writeBanked, hne]

/-- The loop, by induction on the number of words. -/
theorem wordsReset_range (core : ι) (g : State ι) {k : ℕ} (hk : k ≤ 32) :
    WordsReset k g ((List.range k).foldl (resetWord core) g) := by
  induction k with
  | zero => exact ⟨fun _ _ _ => by simp, fun _ _ _ => by simp, rfl, rfl, rfl⟩
  | succ k ih =>
      have h := ih (by omega)
      rw [List.range_succ, List.foldl_append, List.foldl_cons, List.foldl_nil,
        resetWord_eq core (by omega)]
      refine ⟨fun c n hn => ?_, fun c n hn => ?_, h.typer, h.ipriorityr, h.itargetsr⟩
      · refine (writeBanked_word hn).trans ?_
        rw [h.igroupr c n hn]
        split_ifs <;> first | rfl | omega
      · refine (writeBanked_word hn).trans ?_
        rw [h.enabled c n hn]
        split_ifs <;> first | rfl | omega

/-- **The registers after `initialize()`**, as far as shared interrupts go. -/
theorem wordsReset_initializeDriver (core : ι) (g : State ι) :
    WordsReset (itLines g + 1) g (initializeDriver core g) ∧
      (initializeDriver core g).ctlr = gicdCtlrEnableGrp1 := by
  have hlines : itLines g ≤ 31 := by
    rw [itLines, gicdTyperItLinesNumberMask, BitVec.toNat_and]
    exact Nat.and_le_right
  have hctlr : ∀ (v : BitVec 32) (g : State ι),
      writeDistributor core gicdCtlr v g = { g with ctlr := v } := fun v g => by
    rw [writeDistributor, if_pos rfl]
  have hdriver : initializeDriver core g = { (List.range (itLines g + 1)).foldl (resetWord core)
      { g with ctlr := 0, numInterrupts := 32 * (itLines g + 1) } with
        ctlr := gicdCtlrEnableGrp1 } := by
    rw [initializeDriver, initializeGicDistributor, hctlr, hctlr, readDistributor, if_pos rfl]
    simp only [itLines, Nat.mul_div_cancel_left _ (Nat.succ_pos 31)]
  have h := wordsReset_range core { g with ctlr := 0, numInterrupts := 32 * (itLines g + 1) }
    (show itLines g + 1 ≤ 32 by omega)
  rw [hdriver]
  exact ⟨⟨h.igroupr, h.enabled, h.typer, h.ipriorityr, h.itargetsr⟩, rfl⟩

/-- What is shared stays so. -/
theorem Shared.initializeDriver {g : State ι} (h : Shared g) (core : ι) :
    Shared (initializeDriver core g) := by
  obtain ⟨hreset, -⟩ := wordsReset_initializeDriver core g
  constructor
  · intro c c' n hn
    rw [hreset.igroupr c n hn, hreset.igroupr c' n hn, h.igroupr c c' n hn]
  · intro c c' n hn
    rw [hreset.enabled c n hn, hreset.enabled c' n hn, h.enabled c c' n hn]
  · intro c c' id hid
    rw [hreset.ipriorityr, h.ipriorityr c c' id hid]

/-- A shared interrupt after `initialize()`. -/
theorem view_initializeDriver (core c : ι) {g : State ι} {id : ℕ} (hid : 31 < id)
    (himpl : id < 32 * (itLines g + 1)) :
    (view (initializeDriver core g) c id).enabled = false := by
  obtain ⟨hreset, -⟩ := wordsReset_initializeDriver core g
  rw [view, wordBit, hreset.enabled c _ (by omega), if_pos (by omega)]
  simp

/-- The registers that `initialize_interrupt()` leaves alone. -/
theorem rest_initializeInterrupts (core : ι) {calls : List (ℕ × UInt8)}
    (hids : ∀ call ∈ calls, call.1 < 1024) (g : State ι) :
    itLines (initializeInterrupts core calls g) = itLines g ∧
      (initializeInterrupts core calls g).ctlr = g.ctlr := by
  induction calls generalizing g with
  | nil => exact ⟨rfl, rfl⟩
  | cons call calls ih =>
      rw [List.forall_mem_cons] at hids
      have hfirst := initializeInterrupt_eq core hids.1 call.2 g
      obtain ⟨hlines, hctlr⟩ := ih hids.2 (initializeInterrupt core call.1 call.2 g)
      refine ⟨hlines.trans ?_, hctlr.trans ?_⟩
      · rw [hfirst]
        rfl
      · rw [hfirst]

/-- The registers after the set-up, except for those of the interrupts. -/
theorem rest_setUp (core : ι) {calls : List (ℕ × UInt8)}
    (hids : ∀ call ∈ calls, call.1 < 1024) (g : State ι) :
    itLines (setUp core calls g) = itLines g ∧ (setUp core calls g).ctlr = gicdCtlrEnableGrp1 := by
  obtain ⟨hlines, hctlr⟩ := rest_initializeInterrupts core hids (initializeDriver core g)
  obtain ⟨hreset, hon⟩ := wordsReset_initializeDriver core g
  refine ⟨hlines.trans ?_, hctlr.trans hon⟩
  rw [itLines, hreset.typer, itLines]

/-- A shared interrupt after the set-up. -/
theorem view_setUp (core c : ι) {calls : List (ℕ × UInt8)}
    (hids : ∀ call ∈ calls, call.1 < 1024) {g : State ι} (hshared : Shared g) {id : ℕ}
    (hid : 31 < id) :
    Configures calls id (view (initializeDriver core g) c id) (view (setUp core calls g) c id) :=
  (configuresOnly_initializeInterrupts core hids (initializeDriver core g)).shared
    (hshared.initializeDriver core) c id hid

/-- Every shared interrupt that is named goes to the first core. -/
theorem itargetsr_of_mem (core : ι) {calls : List (ℕ × UInt8)}
    (hids : ∀ call ∈ calls, call.1 < 1024) (g : State ι) (c : ι) {id : ℕ} (hid : 31 < id)
    (hmem : id ∈ calls.map Prod.fst) : (initializeInterrupts core calls g).itargetsr c id = 1 := by
  obtain ⟨pre, p, post, rfl, hpost⟩ := exists_last_of_mem hmem
  have hsplit : initializeInterrupts core (pre ++ (id, p) :: post) g =
      initializeInterrupts core post
        (initializeInterrupt core id p (initializeInterrupts core pre g)) := by
    rw [initializeInterrupts, List.foldl_append, List.foldl_cons]
    rfl
  have hlt : id < 1024 := hids (id, p) (by simp)
  rw [hsplit, itargetsr_initializeInterrupts core (fun call hcall => hids call (by simp [hcall]))
    _ c (.inr hpost), initializeInterrupt_eq core hlt]
  simp [hid, writeBanked]

/-- The CPU interfaces replaced. -/
def withInterfaces (ctlr pmr : ι → BitVec 32) (g : State ι) : State ι :=
  { g with giccCtlr := ctlr, giccPmr := pmr }

section WithInterfaces

variable (ctlr pmr : ι → BitVec 32) (g : State ι)

omit [DecidableEq ι]

@[simp] theorem itLines_withInterfaces : itLines (withInterfaces ctlr pmr g) = itLines g := rfl
@[simp] theorem ctlr_withInterfaces : (withInterfaces ctlr pmr g).ctlr = g.ctlr := rfl
@[simp] theorem view_withInterfaces : view (withInterfaces ctlr pmr g) = view g := rfl
@[simp] theorem itargetsr_withInterfaces :
    (withInterfaces ctlr pmr g).itargetsr = g.itargetsr := rfl
@[simp] theorem giccCtlr_withInterfaces : (withInterfaces ctlr pmr g).giccCtlr = ctlr := rfl
@[simp] theorem giccPmr_withInterfaces : (withInterfaces ctlr pmr g).giccPmr = pmr := rfl

end WithInterfaces

/-- What the cores do to their interfaces. -/
theorem coreSpecific_all (cores : List ι) (g : State ι) :
    ∃ ctlr pmr, cores.foldl (fun g core => initializeCoreSpecific core g) g =
        withInterfaces ctlr pmr g ∧
      ∀ c, c ∈ cores ∨ (g.giccCtlr c = 7 ∧ g.giccPmr c = 0xFF) → ctlr c = 7 ∧ pmr c = 0xFF := by
  induction cores generalizing g with
  | nil => exact ⟨g.giccCtlr, g.giccPmr, rfl, fun c hc => by simpa using hc⟩
  | cons core cores ih =>
      obtain ⟨ctlr, pmr, hfold, hset⟩ := ih (initializeCoreSpecific core g)
      refine ⟨ctlr, pmr, hfold, fun c hc => hset c ?_⟩
      by_cases hcore : c = core
      · subst hcore
        right
        simp [initializeCoreSpecific, enableCpuInterface, setCpuPriorityMask, enableCpuInterrupts,
          giccCtlrEnable, giccCtlrEnableGrp1, giccCtlrAckCtl]
      · refine hc.imp (fun hmem => ?_) fun hold => ?_
        · simpa [hcore] using hmem
        · simpa [initializeCoreSpecific, enableCpuInterface, setCpuPriorityMask,
            enableCpuInterrupts, hcore] using hold

end SetUp

/-- The conditions under which the distributor forwards a pending interrupt to a core and the
core's interface signals it, except that a more urgent one may come first. -/
structure Forwards {n : ℕ} (g : State (Fin n)) (c : Fin n) (id : ℕ) : Prop where
  implemented : id < 32 * (itLines g + 1)
  regular : ¬ Special id
  enabled : (view g c id).enabled = true
  target : 31 < id → (g.itargetsr c id).toNat.testBit c = true
  /-- the distributor and the interface have an enable bit for each group -/
  group : g.ctlr.getLsbD (view g c id).group1.toNat = true ∧
    (g.giccCtlr c).getLsbD (view g c id).group1.toNat = true
  priority : (view g c id).priority.toNat < (g.giccPmr c).toNat

section Forwarded

variable {n : ℕ} {g : State (Fin (n + 1))} {calls : List (ℕ × UInt8)}

/-- No other shared interrupt, and no other core. -/
theorem Forwards.named (hshared : Shared g) (hids : ∀ call ∈ calls, call.1 < 1024)
    {ctlr pmr : Fin (n + 1) → BitVec 32} {c : Fin (n + 1)} {id : ℕ} (hid : 31 < id)
    (h : Forwards (withInterfaces ctlr pmr (setUp 0 calls g)) c id) :
    c = 0 ∧ id ∈ calls.map Prod.fst ∧ id < 32 * (itLines g + 1) := by
  have himpl : id < 32 * (itLines g + 1) := by
    simpa [(rest_setUp 0 hids g).1] using h.implemented
  have hmem : id ∈ calls.map Prod.fst := by
    refine ((view_setUp 0 c hids hshared hid).enabled.mp h.enabled).resolve_left fun hold => ?_
    rw [view_initializeDriver 0 c hid himpl] at hold
    cases hold
  refine ⟨Fin.ext ?_, hmem, himpl⟩
  have htarget := h.target hid
  rw [itargetsr_withInterfaces, setUp, itargetsr_of_mem 0 hids _ c hid hmem] at htarget
  exact Nat.testBit_one_eq_true_iff_self_eq_zero.mp htarget

/-- A named shared interrupt reaches the first core when its interface is set up. -/
theorem forwards_of_named (hshared : Shared g)
    (hcalls : ∀ call ∈ calls, call.1 < 1020 ∧ call.2 < 0xFF)
    {ctlr pmr : Fin (n + 1) → BitVec 32} (hctlr : ctlr 0 = 7) (hpmr : pmr 0 = 0xFF) {id : ℕ}
    (hid : 31 < id) (hmem : id ∈ calls.map Prod.fst) (himpl : id < 32 * (itLines g + 1)) :
    Forwards (withInterfaces ctlr pmr (setUp 0 calls g)) 0 id := by
  have hids : ∀ call ∈ calls, call.1 < 1024 := fun call hcall =>
    (hcalls call hcall).1.trans (by norm_num)
  obtain ⟨hlines, hon⟩ := rest_setUp 0 hids g
  have hview := view_setUp 0 0 hids hshared hid
  have hgroup := hview.group1.mpr (.inr hmem)
  -- the last call for the interrupt gives its priority
  obtain ⟨pre, p, post, heq, hpost⟩ := exists_last_of_mem hmem
  obtain ⟨hlt, hp⟩ := hcalls (id, p) (by simp [heq])
  constructor
  · simpa [hlines] using himpl
  · exact fun hspecial => absurd hspecial.1 (by simpa using hlt)
  · exact hview.enabled.mpr (.inr hmem)
  · intro _
    rw [itargetsr_withInterfaces, setUp, itargetsr_of_mem 0 hids _ 0 hid hmem]
    simp
  · rw [view_withInterfaces, hgroup, ctlr_withInterfaces, giccCtlr_withInterfaces, hon, hctlr]
    exact ⟨rfl, rfl⟩
  · rw [view_withInterfaces, hview.priority pre p post heq hpost, giccPmr_withInterfaces, hpmr]
    exact hp

/-- **Which shared interrupts reach which core**. Whatever the registers held before, after
`kern_main` has set up the distributor and the cores their interfaces, in any order, a shared
interrupt can reach a core exactly if it was initialised, the controller implements it, and
the core is the first. -/
theorem shared_forwarded_iff (hshared : Shared g)
    (hcalls : ∀ call ∈ calls, call.1 < 1020 ∧ call.2 < 0xFF) {cores : List (Fin (n + 1))}
    {c : Fin (n + 1)} (hc : c ∈ cores) {id : ℕ} (hid : 31 < id) :
    Forwards (cores.foldl (fun g core => initializeCoreSpecific core g) (setUp 0 calls g)) c id ↔
      c = 0 ∧ id ∈ calls.map Prod.fst ∧ id < 32 * (itLines g + 1) := by
  have hids : ∀ call ∈ calls, call.1 < 1024 := fun call hcall =>
    (hcalls call hcall).1.trans (by norm_num)
  obtain ⟨ctlr, pmr, hfold, hset⟩ := coreSpecific_all cores (setUp 0 calls g)
  obtain ⟨hctlr, hpmr⟩ := hset c (.inl hc)
  rw [hfold]
  refine ⟨Forwards.named hshared hids hid, ?_⟩
  rintro ⟨rfl, hmem, himpl⟩
  exact forwards_of_named hshared hcalls hctlr hpmr hid hmem himpl

end Forwarded

/-- The controller that a GICv2 is. The identifier is in the low ten bits of `IAR`. -/
def controller (n : ℕ) : Controller (Fin (n + 1)) (State (Fin (n + 1))) where
  forwards := Forwards
  start := initializeCoreSpecific
  intid iar := iar.toNat % 1024
  regular h := h.regular

end DriverV2

/-! ### The GICv2 at work -/

section FirstCore

open Delivery DriverV2

variable {n : ℕ} {g : State (Fin (n + 1))} {calls : List (ℕ × UInt8)}
  {s t : Delivery (Fin (n + 1)) (State (Fin (n + 1)))} {tr : List (Event (Fin (n + 1)))}

/-- The cores change nothing but their interfaces. -/
theorem gic_run (hgic : s.gic = setUp 0 calls g) (run : Run (Step (controller n)) s tr t) :
    ∃ ctlr pmr, t.gic = withInterfaces ctlr pmr (setUp 0 calls g) := by
  refine run.invariant (fun _ t => ∃ ctlr pmr, t.gic = withInterfaces ctlr pmr (setUp 0 calls g))
    ⟨_, _, hgic⟩ ?_
  rintro - t e u ⟨ctlr, pmr, ht⟩ hstep
  cases hstep with
  | @start c here =>
      obtain ⟨ctlr', pmr', hfold, -⟩ := coreSpecific_all [c] t.gic
      exact ⟨ctlr', pmr', hfold.trans (by rw [ht]; rfl)⟩
  | _ => exact ⟨ctlr, pmr, ht⟩

/-- **Shared interrupts are served by the first core.** Under the GICv2 driver, whatever the
registers held before and in whatever order devices and cores take their steps, a shared
interrupt that any core acknowledges is one that `kern_main` initialised, and the core is the
first. -/
theorem shared_on_first_core (hshared : Shared g) (hids : ∀ call ∈ calls, call.1 < 1024)
    (hgic : s.gic = setUp 0 calls g) (run : Run (Step (controller n)) s tr t)
    {c : Fin (n + 1)} {iar : UInt32} (hack : .acknowledge c iar ∈ tr)
    (hid : 31 < iar.toNat % 1024) (hreg : ¬ Special (iar.toNat % 1024)) :
    c = 0 ∧ iar.toNat % 1024 ∈ calls.map Prod.fst := by
  induction run with
  | refl => simp at hack
  | @snoc tr t u e run last ih =>
      rcases List.mem_append.mp hack with hack | hack
      · exact ih hack
      obtain rfl := List.mem_singleton.mp hack
      cases last with
      | acknowledge here forwarded pending inactive =>
          obtain ⟨ctlr, pmr, ht⟩ := gic_run hgic run
          rw [ht] at forwarded
          obtain ⟨hc, hmem, -⟩ := Forwards.named hshared hids hid forwarded
          exact ⟨hc, hmem⟩
      | spurious here special => exact absurd special hreg

end FirstCore

/-! ### Two cores -/

section Two

open Delivery DriverV2

/-- The UART and the timer. -/
def twoCalls : List (ℕ × UInt8) := [(33, 120), (30, 120)]

theorem twoCalls_regular : ∀ call ∈ twoCalls, call.1 < 1020 ∧ call.2 < 0xFF := by
  simp [twoCalls]

theorem atReset_shared (ι : Type) : Shared (atReset ι) :=
  ⟨fun _ _ _ _ => rfl, fun _ _ _ _ => rfl, fun _ _ _ _ => rfl⟩

/-- Two cores and a GICv2 after the set-up, before either core unmasks interrupts. -/
def twoDelivery : Delivery (Fin 2) (State (Fin 2)) where
  gic := setUp 0 twoCalls (atReset (Fin 2))
  phase _ := .masked
  pending _ := false
  active _ := none

theorem twoDelivery_initial : Initial twoDelivery := ⟨fun _ => rfl, fun _ => rfl⟩

theorem two_implemented : 33 < 32 * (itLines (atReset (Fin 2)) + 1) := by
  decide

/-- The interrupt of the UART reaches the first core only. -/
theorem shared_forwarded_iff_two :
    Forwards ([0, 1].foldl (fun g core => initializeCoreSpecific core g) twoDelivery.gic) 0 33 ∧
      ¬ Forwards ([0, 1].foldl (fun g core => initializeCoreSpecific core g) twoDelivery.gic)
        1 33 := by
  have hiff := fun (c : Fin 2) (hc : c ∈ [0, 1]) => shared_forwarded_iff
    (atReset_shared (Fin 2)) twoCalls_regular hc (show 31 < 33 by norm_num)
  refine ⟨(hiff 0 (by simp)).mpr ⟨rfl, by simp [twoCalls], two_implemented⟩, fun h => ?_⟩
  exact absurd ((hiff 1 (by simp)).mp h).1 (by decide)

/-- The first core takes it. -/
theorem twoDelivery_run : ∃ t, Run (Step (controller 1)) twoDelivery
    [.start 0, .raise (none, 33), .acknowledge 0 33] t ∧ (t.phase 0).serving = some 33 := by
  obtain ⟨ctlr, pmr, hfold, hset⟩ := coreSpecific_all [0] twoDelivery.gic
  obtain ⟨hctlr, hpmr⟩ := hset 0 (.inl (by simp))
  have hstarted : initializeCoreSpecific 0 twoDelivery.gic =
      withInterfaces ctlr pmr (setUp 0 twoCalls (atReset (Fin 2))) := hfold
  have hforwards : Forwards (initializeCoreSpecific 0 twoDelivery.gic) 0 33 := by
    rw [hstarted]
    exact forwards_of_named (atReset_shared _) twoCalls_regular hctlr hpmr (by norm_num)
      (by simp [twoCalls]) two_implemented
  have h₁ : Step (controller 1) twoDelivery (.start 0) _ := .start rfl
  have h₂ := (Run.refl.snoc h₁).snoc (.raise (none, 33))
  have h₃ := h₂.snoc
    (@Step.acknowledge _ _ _ _ _ 0 33 (by simp) hforwards (by simp [line, controller]) rfl)
  exact ⟨_, h₃, by simp⟩

/-- It is active, and the only one the core has not retired. -/
theorem interrupts_retired_two : ∃ tr t, Run (Step (controller 1)) twoDelivery tr t ∧
    acknowledged 0 tr = retired 0 tr ++ [33] ∧ t.active (none, 33) ≠ none := by
  obtain ⟨t, run, hserving⟩ := twoDelivery_run
  obtain ⟨hcycle, hactive, -⟩ := interrupts_retired twoDelivery_initial run
  refine ⟨_, t, run, ?_, (hactive _).mpr ⟨0, 33, hserving, ?_, rfl⟩⟩
  · rw [hcycle 0, hserving]
    rfl
  · exact fun hspecial => absurd hspecial.1 (by decide)

theorem shared_on_first_core_two : ∃ tr t, Run (Step (controller 1)) twoDelivery tr t ∧
    .acknowledge 0 33 ∈ tr ∧ 33 ∈ twoCalls.map Prod.fst := by
  obtain ⟨t, run, -⟩ := twoDelivery_run
  have hack : Event.acknowledge (0 : Fin 2) 33 ∈
      [.start 0, .raise (none, 33), .acknowledge 0 33] := by simp
  refine ⟨_, t, run, hack, ?_⟩
  exact (shared_on_first_core (atReset_shared _) (by simp [twoCalls]) rfl run hack (by decide)
    fun hspecial => absurd hspecial.1 (by decide)).2

end Two

end Floss
