import Mathlib.Data.BitVec
import Mathlib.Tactic.IntervalCases
import Floss.Exec

/-!
# The Interrupt Controllers

The two drivers of `src/interrupts`. A GICv2 has one distributor, whose registers for the
private interrupts (identifiers 0 to 31) are banked: each core has its own copy and
reaches no other. A GICv3 has a redistributor frame per core, and any core reaches all of
them. The boot core runs `initialize()` and `initialize_interrupt()`; then every core runs
`initialize_core_specific()`.

* the namespaces `DriverV2` and `DriverV3`: the drivers, as far as they configure
  interrupts;
* `DriverV2.boot_bank`: after the boot sequence of the GICv2 the boot core's bank is configured,
  and every other bank is as it was;
* `DriverV3.boot_frames`: after that of the GICv3 every frame is configured;
* `private_interrupts_iff`: the two leave a private interrupt alike on every core exactly
  if the other cores' banks held that configuration from the start;
* `private_interrupts_differ`: two cores, the second with its bank at reset.
-/

namespace Floss

/-! ### GICv2: a distributor with banked registers -/

/-- What is written through the distributor when core `core` writes `v` to register `n`.
Banked registers exist once per core, the others are the same for all. -/
def writeBanked {ι α : Type} [DecidableEq ι] (banked : Bool) (f : ι → ℕ → α) (core : ι)
    (n : ℕ) (v : α) : ι → ℕ → α :=
  fun c k => if k = n ∧ (banked = false ∨ c = core) then v else f c k

namespace DriverV2

variable {ι : Type} [DecidableEq ι]

def gicdCtlr : ℕ := 0x0000
def gicdTyper : ℕ := 0x0004
def gicdIgroupr : ℕ := 0x80
def gicdIsenabler : ℕ := 0x100
def gicdIcenabler : ℕ := 0x180
def gicdIpriorityBase : ℕ := 0x400
def gicdItargetsrBase : ℕ := 0x800

def gicdCtlrEnableGrp1 : BitVec 32 := 0b10
def giccCtlrEnable : BitVec 32 := 0b01
def giccCtlrEnableGrp1 : BitVec 32 := 0b10
def giccCtlrAckCtl : BitVec 32 := 0b100
def gicdTyperItLinesNumberMask : BitVec 32 := 0x1F

/-- The registers of the distributor as each core sees them, those of the CPU interface
of each core, and the driver's `NumInterrupts`. Interrupt `32 * n + i` is bit `i` of the
`n`th group and enable words; priorities and targets have a byte per interrupt. -/
structure State (ι : Type) where
  ctlr : BitVec 32
  typer : BitVec 32
  igroupr : ι → ℕ → BitVec 32
  enabled : ι → ℕ → BitVec 32
  ipriorityr : ι → ℕ → UInt8
  itargetsr : ι → ℕ → UInt8
  giccCtlr : ι → BitVec 32
  giccPmr : ι → BitVec 32
  numInterrupts : ℕ

/-- A word write of `core` to the distributor. Writes to `ISENABLER` set bits, writes to
`ICENABLER` clear them; the words for the first 32 interrupts are banked. -/
def writeDistributor (core : ι) (offset : ℕ) (v : BitVec 32) (g : State ι) : State ι :=
  if offset = gicdCtlr then
    { g with ctlr := v }
  else if gicdIgroupr ≤ offset ∧ offset < gicdIsenabler then
    let n := (offset - gicdIgroupr) / 4
    { g with igroupr := writeBanked (n == 0) g.igroupr core n v }
  else if gicdIsenabler ≤ offset ∧ offset < gicdIcenabler then
    let n := (offset - gicdIsenabler) / 4
    { g with enabled := writeBanked (n == 0) g.enabled core n (g.enabled core n ||| v) }
  else if gicdIcenabler ≤ offset ∧ offset < 0x200 then
    let n := (offset - gicdIcenabler) / 4
    { g with enabled := writeBanked (n == 0) g.enabled core n (g.enabled core n &&& ~~~v) }
  else
    g

/-- A word read of `core` from the distributor, of the registers the driver reads. -/
def readDistributor (core : ι) (offset : ℕ) (g : State ι) : BitVec 32 :=
  if offset = gicdTyper then
    g.typer
  else if gicdIgroupr ≤ offset ∧ offset < gicdIsenabler then
    g.igroupr core ((offset - gicdIgroupr) / 4)
  else
    g.ctlr

/-- A byte write of `core` to the distributor; the bytes of the first 32 interrupts are
banked. -/
def writeDistributorByte (core : ι) (offset : ℕ) (v : UInt8) (g : State ι) : State ι :=
  if gicdIpriorityBase ≤ offset ∧ offset < gicdItargetsrBase then
    let id := offset - gicdIpriorityBase
    { g with ipriorityr := writeBanked (decide (id < 32)) g.ipriorityr core id v }
  else if gicdItargetsrBase ≤ offset ∧ offset < 0xC00 then
    let id := offset - gicdItargetsrBase
    { g with itargetsr := writeBanked (decide (id < 32)) g.itargetsr core id v }
  else
    g

/-- One iteration of the loop of `initialize_gic_distributor`. -/
def resetWord (core : ι) (g : State ι) (n : ℕ) : State ι :=
  let off := n * 4
  let g := writeDistributor core (gicdIgroupr + off) 0xFFFFFFFF g
  writeDistributor core (gicdIcenabler + off) 0xFFFFFFFF g

/-- `initialize_gic_distributor`. -/
def initializeGicDistributor (core : ι) (g : State ι) : State ι :=
  let g := writeDistributor core gicdCtlr 0 g
  let itLines := (readDistributor core gicdTyper g &&& gicdTyperItLinesNumberMask).toNat
  let g := { g with numInterrupts := 32 * (itLines + 1) }
  let g := (List.range (g.numInterrupts / 32)).foldl (resetWord core) g
  writeDistributor core gicdCtlr gicdCtlrEnableGrp1 g

/-- `enable_cpu_interface`. -/
def enableCpuInterface (core : ι) (g : State ι) : State ι :=
  { g with giccCtlr := Function.update g.giccCtlr core giccCtlrEnable }

/-- `enable_cpu_interrupts`. -/
def enableCpuInterrupts (core : ι) (g : State ι) : State ι :=
  let ctlr := g.giccCtlr core ||| (giccCtlrEnableGrp1 ||| giccCtlrAckCtl)
  { g with giccCtlr := Function.update g.giccCtlr core ctlr }

/-- `set_cpu_priority_mask`. -/
def setCpuPriorityMask (core : ι) (priority : BitVec 32) (g : State ι) : State ι :=
  { g with giccPmr := Function.update g.giccPmr core priority }

/-- `set_interrupt_priority`. -/
def setInterruptPriority (core : ι) (id : ℕ) (priority : UInt8) (g : State ι) : State ι :=
  writeDistributorByte core (gicdIpriorityBase + id) priority g

/-- `set_interrupt_group`. -/
def setInterruptGroup (core : ι) (id : ℕ) (g : State ι) : State ι :=
  let regOffset := id / 32 * 4
  let shift := id % 32
  let igrouprn := readDistributor core (gicdIgroupr + regOffset) g
  writeDistributor core (gicdIgroupr + regOffset) (igrouprn ||| (1#32 <<< shift)) g

/-- `enable_interrupt`. -/
def enableInterrupt (core : ι) (id : ℕ) (g : State ι) : State ι :=
  let regOffset := id / 32 * 4
  let shift := id % 32
  writeDistributor core (gicdIsenabler + regOffset) (1#32 <<< shift) g

/-- `set_interrupt_routing`: shared interrupts go to the first core. -/
def setInterruptRouting (core : ι) (id : ℕ) (g : State ι) : State ι :=
  if id > 31 then
    writeDistributorByte core (gicdItargetsrBase + id) 0b00000001 g
  else
    g

/-- `initialize`. -/
def initializeDriver (core : ι) (g : State ι) : State ι :=
  initializeGicDistributor core g

/-- `initialize_core_specific`. -/
def initializeCoreSpecific (core : ι) (g : State ι) : State ι :=
  let g := enableCpuInterface core g
  let g := setCpuPriorityMask core 0xFF g
  enableCpuInterrupts core g

/-- `initialize_interrupt`. -/
def initializeInterrupt (core : ι) (id : ℕ) (priority : UInt8) (g : State ι) : State ι :=
  let g := setInterruptPriority core id priority g
  let g := setInterruptGroup core id g
  let g := setInterruptRouting core id g
  enableInterrupt core id g

/-- **The boot sequence**: the boot core initialises the driver and the interrupt, then
every core of `cores` initialises its own part. -/
def boot (bootCore : ι) (cores : List ι) (id : ℕ) (priority : UInt8) (g : State ι) : State ι :=
  let g := initializeDriver bootCore g
  let g := initializeInterrupt bootCore id priority g
  cores.foldl (fun g core => initializeCoreSpecific core g) g

/-- A private interrupt is in Group 1, has priority `priority` and is enabled, as core
`core` sees it. -/
structure Configured (id : ℕ) (priority : UInt8) (g : State ι) (core : ι) : Prop where
  group : (g.igroupr core 0).getLsbD id = true
  priority : g.ipriorityr core id = priority
  enabled : (g.enabled core 0).getLsbD id = true

/-! ### The registers by their number -/

/-- Word `n` of `IGROUPR`. -/
theorem writeDistributor_igroupr (core : ι) {n : ℕ} (hn : n < 32) (v : BitVec 32)
    (g : State ι) : writeDistributor core (gicdIgroupr + n * 4) v g =
      { g with igroupr := writeBanked (n == 0) g.igroupr core n v } := by
  have hctlr : gicdIgroupr + n * 4 ≠ gicdCtlr := by
    norm_num [gicdIgroupr, gicdCtlr]
  have hrange : gicdIgroupr ≤ gicdIgroupr + n * 4 ∧ gicdIgroupr + n * 4 < gicdIsenabler := by
    norm_num [gicdIgroupr, gicdIsenabler]
    omega
  have hindex : (gicdIgroupr + n * 4 - gicdIgroupr) / 4 = n := by omega
  rw [writeDistributor, if_neg hctlr, if_pos hrange, hindex]

/-- Word `n` of `ISENABLER`: one bits enable. -/
theorem writeDistributor_isenabler (core : ι) {n : ℕ} (hn : n < 32) (v : BitVec 32)
    (g : State ι) : writeDistributor core (gicdIsenabler + n * 4) v g =
      { g with enabled := writeBanked (n == 0) g.enabled core n (g.enabled core n ||| v) } := by
  have hctlr : gicdIsenabler + n * 4 ≠ gicdCtlr := by
    norm_num [gicdIsenabler, gicdCtlr]
  have hgroup : ¬ (gicdIgroupr ≤ gicdIsenabler + n * 4 ∧
      gicdIsenabler + n * 4 < gicdIsenabler) := by omega
  have hrange : gicdIsenabler ≤ gicdIsenabler + n * 4 ∧
      gicdIsenabler + n * 4 < gicdIcenabler := by
    norm_num [gicdIsenabler, gicdIcenabler]
    omega
  have hindex : (gicdIsenabler + n * 4 - gicdIsenabler) / 4 = n := by omega
  rw [writeDistributor, if_neg hctlr, if_neg hgroup, if_pos hrange, hindex]

omit [DecidableEq ι] in
/-- Word `n` of `IGROUPR`, read. -/
theorem readDistributor_igroupr (core : ι) {n : ℕ} (hn : n < 32) (g : State ι) :
    readDistributor core (gicdIgroupr + n * 4) g = g.igroupr core n := by
  have htyper : gicdIgroupr + n * 4 ≠ gicdTyper := by
    norm_num [gicdIgroupr, gicdTyper]
    omega
  have hrange : gicdIgroupr ≤ gicdIgroupr + n * 4 ∧ gicdIgroupr + n * 4 < gicdIsenabler := by
    norm_num [gicdIgroupr, gicdIsenabler]
    omega
  have hindex : (gicdIgroupr + n * 4 - gicdIgroupr) / 4 = n := by omega
  rw [readDistributor, if_neg htyper, if_pos hrange, hindex]

/-- `set_interrupt_priority` writes the byte of its interrupt. -/
theorem setInterruptPriority_eq (core : ι) {id : ℕ} (hid : id < 1024) (priority : UInt8)
    (g : State ι) : setInterruptPriority core id priority g =
      { g with
        ipriorityr := writeBanked (decide (id < 32)) g.ipriorityr core id priority } := by
  have hrange : gicdIpriorityBase ≤ gicdIpriorityBase + id ∧
      gicdIpriorityBase + id < gicdItargetsrBase := by
    norm_num [gicdIpriorityBase, gicdItargetsrBase]
    omega
  have hindex : gicdIpriorityBase + id - gicdIpriorityBase = id := by omega
  rw [setInterruptPriority, writeDistributorByte, if_pos hrange, hindex]

/-- `set_interrupt_group` sets the bit of its interrupt. -/
theorem setInterruptGroup_eq (core : ι) {id : ℕ} (hid : id < 1024) (g : State ι) :
    setInterruptGroup core id g =
      { g with
        igroupr := writeBanked (id / 32 == 0) g.igroupr core (id / 32)
          (g.igroupr core (id / 32) ||| (1#32 <<< (id % 32))) } := by
  have hn : id / 32 < 32 := by omega
  rw [setInterruptGroup, readDistributor_igroupr core hn, writeDistributor_igroupr core hn]

/-- `enable_interrupt` sets the bit of its interrupt. -/
theorem enableInterrupt_eq (core : ι) {id : ℕ} (hid : id < 1024) (g : State ι) :
    enableInterrupt core id g =
      { g with
        enabled := writeBanked (id / 32 == 0) g.enabled core (id / 32)
          (g.enabled core (id / 32) ||| (1#32 <<< (id % 32))) } := by
  have hn : id / 32 < 32 := by omega
  rw [enableInterrupt, writeDistributor_isenabler core hn]

/-! ### Banks -/

/-- Core `c` sees the private interrupts as before. -/
structure SameBank (c : ι) (g g' : State ι) : Prop where
  igroupr : g'.igroupr c 0 = g.igroupr c 0
  enabled : g'.enabled c 0 = g.enabled c 0
  ipriorityr : ∀ id < 32, g'.ipriorityr c id = g.ipriorityr c id

omit [DecidableEq ι] in
theorem SameBank.refl (c : ι) (g : State ι) : SameBank c g g :=
  ⟨rfl, rfl, fun _ _ => rfl⟩

omit [DecidableEq ι] in
theorem SameBank.trans {c : ι} {g g' g'' : State ι} (h₁ : SameBank c g g')
    (h₂ : SameBank c g' g'') : SameBank c g g'' :=
  ⟨h₂.igroupr.trans h₁.igroupr, h₂.enabled.trans h₁.enabled,
    fun id hid => (h₂.ipriorityr id hid).trans (h₁.ipriorityr id hid)⟩

omit [DecidableEq ι] in
/-- A configured interrupt stays so while the bank does not change. -/
theorem SameBank.configured {c : ι} {g g' : State ι} {id : ℕ} {priority : UInt8}
    (h : SameBank c g g') (hid : id < 32) :
    Configured id priority g' c ↔ Configured id priority g c := by
  constructor
  · rintro ⟨h₁, h₂, h₃⟩
    exact ⟨h.igroupr ▸ h₁, h.ipriorityr id hid ▸ h₂, h.enabled ▸ h₃⟩
  · rintro ⟨h₁, h₂, h₃⟩
    exact ⟨h.igroupr.symm ▸ h₁, (h.ipriorityr id hid).symm ▸ h₂, h.enabled.symm ▸ h₃⟩

/-- A banked write reaches the writing core's copy only. -/
theorem writeBanked_of_ne {α : Type} {f : ι → ℕ → α} {core c : ι} {banked : Bool} {n k : ℕ}
    {v : α} (hc : c ≠ core) (hk : k = n → banked = true) :
    writeBanked banked f core n v c k = f c k := by
  rw [writeBanked, if_neg]
  rintro ⟨hkn, hb | hcc⟩
  · simp [hk hkn] at hb
  · exact hc hcc

/-- The writing core reads back what it wrote. -/
theorem writeBanked_self {α : Type} (f : ι → ℕ → α) (core : ι) (banked : Bool) (n : ℕ)
    (v : α) : writeBanked banked f core n v core n = v := by
  simp [writeBanked]

/-- **No core reaches another core's bank** with a word write. -/
theorem sameBank_writeDistributor {core c : ι} (hc : c ≠ core) (offset : ℕ) (v : BitVec 32)
    (g : State ι) : SameBank c g (writeDistributor core offset v g) := by
  have hbank : ∀ {n : ℕ}, 0 = n → (n == 0) = true := by
    rintro n rfl
    rfl
  rw [writeDistributor]
  split
  · exact ⟨rfl, rfl, fun _ _ => rfl⟩
  · split
    · exact ⟨writeBanked_of_ne hc hbank, rfl, fun _ _ => rfl⟩
    · split
      · exact ⟨rfl, writeBanked_of_ne hc hbank, fun _ _ => rfl⟩
      · split
        · exact ⟨rfl, writeBanked_of_ne hc hbank, fun _ _ => rfl⟩
        · exact SameBank.refl c g

/-- Nor with a byte write. -/
theorem sameBank_writeDistributorByte {core c : ι} (hc : c ≠ core) (offset : ℕ) (v : UInt8)
    (g : State ι) : SameBank c g (writeDistributorByte core offset v g) := by
  rw [writeDistributorByte]
  split
  · refine ⟨rfl, rfl, fun id hid => writeBanked_of_ne hc fun heq => ?_⟩
    exact decide_eq_true (heq ▸ hid)
  · split
    · exact ⟨rfl, rfl, fun _ _ => rfl⟩
    · exact SameBank.refl c g

/-- The CPU interface is not part of the bank. -/
theorem sameBank_initializeCoreSpecific (core c : ι) (g : State ι) :
    SameBank c g (initializeCoreSpecific core g) :=
  ⟨rfl, rfl, fun _ _ => rfl⟩

/-- What all cores do last changes no bank. -/
theorem sameBank_cores (c : ι) (cores : List ι) (g : State ι) :
    SameBank c g (cores.foldl (fun g core => initializeCoreSpecific core g) g) := by
  induction cores generalizing g with
  | nil => exact SameBank.refl c g
  | cons core cores ih => exact (sameBank_initializeCoreSpecific core c g).trans (ih _)

/-- `initialize()` on another core. -/
theorem sameBank_initializeDriver {core c : ι} (hc : c ≠ core) (g : State ι) :
    SameBank c g (initializeDriver core g) := by
  have hloop : ∀ (ns : List ℕ) (g : State ι), SameBank c g (ns.foldl (resetWord core) g) := by
    intro ns
    induction ns with
    | nil => exact fun g => SameBank.refl c g
    | cons n ns ih =>
      intro g
      refine SameBank.trans ?_ (ih (resetWord core g n))
      exact (sameBank_writeDistributor hc _ _ g).trans (sameBank_writeDistributor hc _ _ _)
  rw [initializeDriver, initializeGicDistributor]
  refine SameBank.trans ?_ (sameBank_writeDistributor hc _ _ _)
  refine SameBank.trans ?_ (hloop _ _)
  have hctlr := sameBank_writeDistributor hc gicdCtlr 0 g
  exact ⟨hctlr.igroupr, hctlr.enabled, hctlr.ipriorityr⟩

/-- `initialize_interrupt()` on another core. -/
theorem sameBank_initializeInterrupt {core c : ι} (hc : c ≠ core) (id : ℕ)
    (priority : UInt8) (g : State ι) :
    SameBank c g (initializeInterrupt core id priority g) := by
  have hroute : ∀ g : State ι, SameBank c g (setInterruptRouting core id g) := by
    intro g
    rw [setInterruptRouting]
    split
    · exact sameBank_writeDistributorByte hc _ _ g
    · exact SameBank.refl c g
  have hprio := sameBank_writeDistributorByte hc (gicdIpriorityBase + id) priority g
  have hgroup := hprio.trans (sameBank_writeDistributor hc (gicdIgroupr + id / 32 * 4)
    (readDistributor core (gicdIgroupr + id / 32 * 4)
      (setInterruptPriority core id priority g) ||| (1#32 <<< (id % 32))) _)
  exact (hgroup.trans (hroute _)).trans (sameBank_writeDistributor hc _ _ _)

/-- **`initialize_interrupt()` configures the bank of the core that runs it**. -/
theorem configured_initializeInterrupt (core : ι) {id : ℕ} (hid : id < 32)
    (priority : UInt8) (g : State ι) :
    Configured id priority (initializeInterrupt core id priority g) core := by
  have hdiv : id / 32 = 0 := by omega
  have hmod : id % 32 = id := by omega
  have hroute : ∀ g : State ι, setInterruptRouting core id g = g := fun g => by
    rw [setInterruptRouting, if_neg (by omega)]
  have hid' : id < 1024 := by omega
  rw [initializeInterrupt, hroute, setInterruptPriority_eq core hid',
    setInterruptGroup_eq core hid',
    enableInterrupt_eq core hid', hdiv, hmod]
  constructor
  · simp [writeBanked_self, hid]
  · simp [writeBanked_self]
  · simp [writeBanked_self, hid]

/-- **The boot sequence of the GICv2** configures the boot core's bank and no other. -/
theorem boot_bank (bootCore : ι) (cores : List ι) {id : ℕ} (hid : id < 32)
    (priority : UInt8) (g : State ι) :
    Configured id priority (boot bootCore cores id priority g) bootCore ∧
      ∀ c, c ≠ bootCore → (Configured id priority (boot bootCore cores id priority g) c ↔
        Configured id priority g c) := by
  rw [boot]
  refine ⟨((sameBank_cores _ _ _).configured hid).2
    (configured_initializeInterrupt bootCore hid priority _), fun c hc => ?_⟩
  exact (((sameBank_initializeDriver hc g).trans
    (sameBank_initializeInterrupt hc id priority _)).trans (sameBank_cores _ _ _)).configured hid

end DriverV2

/-! ### GICv3: a redistributor frame per core -/

/-- A busy-wait on a bit of a register: what the reads show, until it is clear. -/
def pollClear : List Bool → Exec (List Bool)
  | [] => .error .fuel
  | set :: reads => if set then pollClear reads else .ok reads

namespace DriverV3

def gicdCtlrEnableGrp1 : BitVec 32 := 0b10
def gicdCtlrNsEnableGrp1A : BitVec 32 := 0b10
def gicdCtlrDs : BitVec 32 := 1 <<< 6
def gicdCtlrE1nwf : BitVec 32 := 1 <<< 6
def gicrTyperLast : BitVec 64 := 0b10000
def gicrWakerProcessorSleep : BitVec 32 := 0b010

/-- A redistributor: the registers of its two frames that the driver uses. -/
structure Redistributor where
  waker : BitVec 32
  /-- what reads of `GICR_WAKER.ChildrenAsleep` will show -/
  childrenAsleep : List Bool
  typer : BitVec 64
  igroupr0 : BitVec 32
  enabled0 : BitVec 32
  ipriorityr : ℕ → UInt8

/-- The distributor registers the driver uses, the redistributors of the cores one after
the other, the CPU interface of each core and the driver's `NumRedistributors`. -/
structure State where
  ctlr : BitVec 32
  /-- what reads of `GICD_CTLR.RWP` will show -/
  rwp : List Bool
  igroupr : ℕ → BitVec 32
  enabled : ℕ → BitVec 32
  ipriorityr : ℕ → UInt8
  redistributors : List Redistributor
  iccSre : ℕ → BitVec 64
  iccPmr : ℕ → BitVec 64
  iccIgrpen1 : ℕ → BitVec 64
  numRedistributors : ℕ

/-- `redistributor_rd(n, ..)` and `redistributor_sgi(n, ..)`: the registers of the `n`th
redistributor. There is nothing behind the last one. -/
def redistributor (n : ℕ) (g : State) : Exec Redistributor :=
  match g.redistributors[n]? with
  | some r => .ok r
  | none => .error (.bounds n g.redistributors.length)

/-- Write the registers of the `n`th redistributor. -/
def setRedistributor (n : ℕ) (r : Redistributor) (g : State) : State :=
  { g with redistributors := g.redistributors.set n r }

/-- `initialize_gic_distributor`. -/
def initializeGicDistributor (g : State) : Exec State := do
  let ctlr :=
    if g.ctlr &&& gicdCtlrDs ≠ 0 then
      g.ctlr ||| (gicdCtlrE1nwf ||| gicdCtlrEnableGrp1)
    else
      g.ctlr ||| (gicdCtlrE1nwf ||| gicdCtlrNsEnableGrp1A)
  let rwp ← pollClear g.rwp
  return { g with ctlr := ctlr, rwp := rwp }

/-- The loop of `initialize_gic_redistributors` from redistributor `current` on: wake it,
and go on unless it is the last one. -/
def wakeFrom : (fuel : ℕ) → (current : ℕ) → State → Exec State
  | 0, _, _ => .error .fuel
  | fuel + 1, current, g => do
      let r ← redistributor current g
      let waker := r.waker &&& ~~~gicrWakerProcessorSleep
      let asleep ← pollClear r.childrenAsleep
      let g := setRedistributor current { r with waker := waker, childrenAsleep := asleep } g
      if r.typer &&& gicrTyperLast ≠ 0 then
        return { g with numRedistributors := current + 1 }
      else
        wakeFrom fuel (current + 1) g

/-- `initialize_gic_redistributors`. The loop leaves the redistributors before it can make
more iterations than there are of them. -/
def initializeGicRedistributors (g : State) : Exec State :=
  wakeFrom (g.redistributors.length + 1) 0 g

/-- Apply `f` to the redistributors `0` to `NumRedistributors - 1`, one after the other. -/
def eachRedistributor (f : Redistributor → Redistributor) (g : State) : Exec State :=
  (List.range g.numRedistributors).foldlM
    (fun g i => do
      let r ← redistributor i g
      return setRedistributor i (f r) g) g

/-- `set_interrupt_priority`. -/
def setInterruptPriority (id : ℕ) (priority : UInt8) (g : State) : Exec State :=
  if id > 31 then
    .ok { g with ipriorityr := Function.update g.ipriorityr id priority }
  else
    eachRedistributor
      (fun r => { r with ipriorityr := Function.update r.ipriorityr id priority }) g

/-- `set_interrupt_group`. -/
def setInterruptGroup (id : ℕ) (g : State) : Exec State :=
  if id > 31 then
    let n := id / 32
    let shift := id % 32
    .ok { g with igroupr := Function.update g.igroupr n (g.igroupr n ||| (1#32 <<< shift)) }
  else
    eachRedistributor (fun r => { r with igroupr0 := r.igroupr0 ||| (1#32 <<< id) }) g

/-- `enable_interrupt`: writes to `ISENABLER` set bits. -/
def enableInterrupt (id : ℕ) (g : State) : Exec State :=
  if id > 31 then
    let n := id / 32
    let shift := id % 32
    .ok { g with enabled := Function.update g.enabled n (g.enabled n ||| (1#32 <<< shift)) }
  else
    eachRedistributor (fun r => { r with enabled0 := r.enabled0 ||| (1#32 <<< id) }) g

/-- `initialize`. -/
def initializeDriver (g : State) : Exec State := do
  let g ← initializeGicDistributor g
  initializeGicRedistributors g

/-- `initialize_core_specific` on `core`: `enable_cpu_interface`, `set_cpu_priority_mask`
and `enable_cpu_interrupts` write the core's own system registers. -/
def initializeCoreSpecific (core : ℕ) (g : State) : State :=
  { g with
    iccSre := Function.update g.iccSre core (g.iccSre core ||| 1)
    iccPmr := Function.update g.iccPmr core 0xFF
    iccIgrpen1 := Function.update g.iccIgrpen1 core 1 }

/-- `initialize_interrupt`. -/
def initializeInterrupt (id : ℕ) (priority : UInt8) (g : State) : Exec State := do
  let g ← setInterruptPriority id priority g
  let g ← setInterruptGroup id g
  enableInterrupt id g

/-- **The boot sequence**, as for the GICv2. -/
def boot (cores : List ℕ) (id : ℕ) (priority : UInt8) (g : State) : Exec State := do
  let g ← initializeDriver g
  let g ← initializeInterrupt id priority g
  return cores.foldl (fun g core => initializeCoreSpecific core g) g

/-- A private interrupt is in Group 1, has priority `priority` and is enabled in a
redistributor. -/
structure Configured (id : ℕ) (priority : UInt8) (r : Redistributor) : Prop where
  group : r.igroupr0.getLsbD id = true
  priority : r.ipriorityr id = priority
  enabled : r.enabled0.getLsbD id = true

/-- What a GICv3 of `n` cores shows the driver: one redistributor per core, the last one
and no other flagged `Last`, and bits that the driver waits for become clear. -/
structure Shows (n : ℕ) (g : State) : Prop where
  cores : g.redistributors.length = n
  pos : 0 < n
  last : ∀ k r, g.redistributors[k]? = some r → (r.typer &&& gicrTyperLast ≠ 0 ↔ k + 1 = n)
  rwp : false ∈ g.rwp
  wakes : ∀ r ∈ g.redistributors, false ∈ r.childrenAsleep

/-! ### Every frame -/

/-- A busy-wait ends when its bit becomes clear. -/
theorem pollClear_of_mem {reads : List Bool} (h : false ∈ reads) :
    ∃ rest, pollClear reads = .ok rest := by
  induction reads with
  | nil => simp at h
  | cons set reads ih =>
    cases set with
    | false => exact ⟨reads, rfl⟩
    | true => exact ih (by simpa using h)

/-- The redistributors after a write to one of them. -/
theorem getElem?_setRedistributor {n k : ℕ} {r s : Redistributor} {g : State}
    (hs : (setRedistributor n r g).redistributors[k]? = some s) :
    (k = n ∧ s = r) ∨ (k ≠ n ∧ g.redistributors[k]? = some s) := by
  rw [setRedistributor, List.getElem?_set] at hs
  split at hs
  · rename_i hk
    split at hs
    · exact .inl ⟨hk.symm, (Option.some.inj hs).symm⟩
    · simp at hs
  · rename_i hk
    exact .inr ⟨fun h => hk h.symm, hs⟩

/-- **The wake-up loop** ends at the redistributor flagged `Last` and has counted them
all. -/
theorem wakeFrom_counts {n fuel current : ℕ} {g : State}
    (hlen : g.redistributors.length = n) (hcur : current < n) (hfuel : n < current + fuel)
    (hlast : ∀ k r, g.redistributors[k]? = some r →
      (r.typer &&& gicrTyperLast ≠ 0 ↔ k + 1 = n))
    (hwakes : ∀ k r, current ≤ k → g.redistributors[k]? = some r → false ∈ r.childrenAsleep) :
    ∃ g', wakeFrom fuel current g = .ok g' ∧ g'.numRedistributors = n ∧
      g'.redistributors.length = n := by
  induction fuel generalizing current g with
  | zero => omega
  | succ fuel ih =>
    obtain ⟨r, hr⟩ : ∃ r, g.redistributors[current]? = some r :=
      ⟨_, List.getElem?_eq_getElem (hlen ▸ hcur)⟩
    obtain ⟨asleep, hpoll⟩ := pollClear_of_mem (hwakes current r le_rfl hr)
    have hread : redistributor current g = .ok r := by rw [redistributor, hr]
    rw [wakeFrom, hread, ok_bind, hpoll, ok_bind]
    by_cases hflag : r.typer &&& gicrTyperLast ≠ 0
    · rw [if_pos hflag]
      exact ⟨_, rfl, (hlast current r hr).1 hflag, by simpa [setRedistributor] using hlen⟩
    · rw [if_neg hflag]
      have hnext : current + 1 ≠ n := fun h => hflag ((hlast current r hr).2 h)
      -- the redistributor just woken keeps its type register; the later ones are untouched
      refine ih (by simpa [setRedistributor] using hlen) (by omega) (by omega) ?_ ?_
      · intro k s hs
        rcases getElem?_setRedistributor hs with ⟨rfl, rfl⟩ | ⟨-, hs⟩
        · exact hlast k r hr
        · exact hlast k s hs
      · intro k s hk hs
        rcases getElem?_setRedistributor hs with ⟨rfl, -⟩ | ⟨-, hs⟩
        · omega
        · exact hwakes k s (by omega) hs

/-- The loop over the first `m` redistributors. -/
theorem foldlM_setRedistributor (f : Redistributor → Redistributor) (g : State) {m : ℕ}
    (hm : m ≤ g.redistributors.length) :
    (List.range m).foldlM (fun g i => do
        let r ← redistributor i g
        return setRedistributor i (f r) g) g =
      .ok { g with
        redistributors := (g.redistributors.take m).map f ++ g.redistributors.drop m } := by
  induction m with
  | zero => simp
  | succ m ih =>
    have hlt : m < g.redistributors.length := hm
    have hdrop := List.drop_eq_getElem_cons hlt
    have htake : ((g.redistributors.take m).map f).length = m := by
      simp
      omega
    rw [List.range_succ, List.foldlM_append, ih (by omega), ok_bind]
    have hread : redistributor m { g with
          redistributors := (g.redistributors.take m).map f ++ g.redistributors.drop m } =
        .ok g.redistributors[m] := by
      rw [redistributor]
      simp only [List.getElem?_append_right htake.le, htake, Nat.sub_self, hdrop]
      rfl
    rw [List.foldlM_cons, hread, ok_bind]
    simp only [pure_eq_ok, ok_bind, List.foldlM_nil, setRedistributor]
    rw [List.set_append_right _ _ htake.le, htake, Nat.sub_self, hdrop, List.set_cons_zero,
      List.take_succ_eq_append_getElem hlt, List.map_append, List.append_assoc]
    rfl

/-- **The loop over all redistributors** reaches each of them once. -/
theorem eachRedistributor_eq (f : Redistributor → Redistributor) {g : State}
    (hnum : g.numRedistributors = g.redistributors.length) :
    eachRedistributor f g = .ok { g with redistributors := g.redistributors.map f } := by
  rw [eachRedistributor, hnum, foldlM_setRedistributor f g le_rfl]
  simp [hnum]

/-- A redistributor after `initialize_interrupt()` for a private interrupt. -/
def Redistributor.configure (id : ℕ) (priority : UInt8) (r : Redistributor) : Redistributor :=
  { r with
    ipriorityr := Function.update r.ipriorityr id priority
    igroupr0 := r.igroupr0 ||| (1#32 <<< id)
    enabled0 := r.enabled0 ||| (1#32 <<< id) }

/-- `initialize_interrupt()` for a private interrupt writes to every redistributor. -/
theorem initializeInterrupt_private {id : ℕ} (hid : id ≤ 31) (priority : UInt8) {g : State}
    (hnum : g.numRedistributors = g.redistributors.length) :
    initializeInterrupt id priority g =
      .ok { g with redistributors := g.redistributors.map (·.configure id priority) } := by
  have hnot : ¬ id > 31 := by omega
  rw [initializeInterrupt, setInterruptPriority, if_neg hnot, eachRedistributor_eq _ hnum,
    ok_bind, setInterruptGroup, if_neg hnot, eachRedistributor_eq _ (by simpa using hnum),
    ok_bind, enableInterrupt, if_neg hnot, eachRedistributor_eq _ (by simpa using hnum)]
  simp only [List.map_map]
  rfl

/-- **`initialize_interrupt()` configures every redistributor** that the driver knows. -/
theorem initializeInterrupt_configures {id : ℕ} (hid : id < 32) (priority : UInt8) {g : State}
    (hnum : g.numRedistributors = g.redistributors.length) :
    ∃ g', initializeInterrupt id priority g = .ok g' ∧
      g'.redistributors.length = g.redistributors.length ∧
      ∀ r ∈ g'.redistributors, Configured id priority r := by
  refine ⟨_, initializeInterrupt_private (by omega) priority hnum, by simp, ?_⟩
  intro r hr
  obtain ⟨r₀, -, rfl⟩ := List.mem_map.mp hr
  constructor
  · simp [Redistributor.configure, hid]
  · simp [Redistributor.configure]
  · simp [Redistributor.configure, hid]

/-- The setup of the cores' own registers leaves the redistributors alone. -/
theorem redistributors_coreSpecific (cores : List ℕ) (g : State) :
    (cores.foldl (fun g core => initializeCoreSpecific core g) g).redistributors =
      g.redistributors := by
  induction cores generalizing g with
  | nil => rfl
  | cons c cores ih => exact ih (initializeCoreSpecific c g)

/-- **The boot sequence of the GICv3** configures the frame of every core. -/
theorem boot_frames {n : ℕ} {g : State} (h : Shows n g) (cores : List ℕ) {id : ℕ}
    (hid : id < 32) (priority : UInt8) :
    ∃ g', boot cores id priority g = .ok g' ∧ g'.redistributors.length = n ∧
      ∀ r ∈ g'.redistributors, Configured id priority r := by
  obtain ⟨g₀, hg₀, hsame⟩ : ∃ g₀, initializeGicDistributor g = .ok g₀ ∧
      g₀.redistributors = g.redistributors := by
    obtain ⟨rwp, hrwp⟩ := pollClear_of_mem h.rwp
    rw [initializeGicDistributor, hrwp]
    exact ⟨_, rfl, rfl⟩
  obtain ⟨g₁, hg₁, hnum, hlen⟩ : ∃ g₁, initializeGicRedistributors g₀ = .ok g₁ ∧
      g₁.numRedistributors = n ∧ g₁.redistributors.length = n := by
    refine wakeFrom_counts ?_ h.pos ?_ ?_ ?_
    · rw [hsame, h.cores]
    · rw [hsame, h.cores]
      omega
    · rw [hsame]
      exact h.last
    · intro k r _ hr
      rw [hsame] at hr
      exact h.wakes r (List.mem_of_getElem? hr)
  obtain ⟨g₂, hg₂, hlen₂, hconf⟩ := initializeInterrupt_configures hid priority
    (hnum.trans hlen.symm)
  refine ⟨cores.foldl (fun g core => initializeCoreSpecific core g) g₂, ?_, ?_, ?_⟩
  · rw [boot, initializeDriver, hg₀, ok_bind, hg₁, ok_bind, hg₂, ok_bind, pure_eq_ok]
  · rw [redistributors_coreSpecific, hlen₂, hlen]
  · rw [redistributors_coreSpecific]
    exact hconf

end DriverV3

/-! ### Both drivers -/

/-- **When the drivers agree on private interrupts**. For any number of cores, after the
boot sequence a private interrupt is in Group 1, has its priority and is enabled on every
core under both drivers if and only if every core other than the boot core already had
it so in its GICv2 bank; under the GICv3 driver it always is. -/
theorem private_interrupts_iff {n : ℕ} (bootCore : Fin n) (cores : List (Fin n)) {id : ℕ}
    (hid : id < 32) (priority : UInt8) (g₂ : DriverV2.State (Fin n)) {g₃ : DriverV3.State}
    (h₃ : DriverV3.Shows n g₃) :
    ∃ g₃', DriverV3.boot (cores.map (·.val)) id priority g₃ = .ok g₃' ∧
      (((∀ c : Fin n, DriverV2.Configured id priority
            (DriverV2.boot bootCore cores id priority g₂) c) ∧
          ∀ c : Fin n, ∃ r, g₃'.redistributors[c.val]? = some r ∧
            DriverV3.Configured id priority r) ↔
        ∀ c, c ≠ bootCore → DriverV2.Configured id priority g₂ c) := by
  obtain ⟨g₃', hg₃, hlen, hframes⟩ :=
    DriverV3.boot_frames h₃ (cores.map (·.val)) hid priority
  obtain ⟨hboot, hothers⟩ := DriverV2.boot_bank bootCore cores hid priority g₂
  refine ⟨g₃', hg₃, ?_, fun hbanks => ⟨fun c => ?_, fun c => ?_⟩⟩
  · rintro ⟨hall, -⟩ c hc
    exact (hothers c hc).1 (hall c)
  · rcases eq_or_ne c bootCore with rfl | hc
    · exact hboot
    · exact (hothers c hc).2 (hbanks c hc)
  · have hlt : c.val < g₃'.redistributors.length := hlen ▸ c.isLt
    exact ⟨_, List.getElem?_eq_getElem hlt, hframes _ (List.getElem_mem hlt)⟩

/-- A GICv2 with all registers at zero and 64 interrupts. -/
def DriverV2.atReset (ι : Type) : DriverV2.State ι where
  ctlr := 0
  typer := 1
  igroupr _ _ := 0
  enabled _ _ := 0
  ipriorityr _ _ := 0
  itargetsr _ _ := 0
  giccCtlr _ := 0
  giccPmr _ := 0
  numInterrupts := 0

/-- A redistributor at reset: asleep, awake at the second look. -/
def DriverV3.redistributorAtReset (last : Bool) : DriverV3.Redistributor where
  waker := 0b110
  childrenAsleep := [true, false]
  typer := if last then gicrTyperLast else 0
  igroupr0 := 0
  enabled0 := 0
  ipriorityr _ := 0

/-- A GICv3 of two cores at reset. -/
def DriverV3.twoAtReset : DriverV3.State where
  ctlr := 0
  rwp := [false]
  igroupr _ := 0
  enabled _ := 0
  ipriorityr _ := 0
  redistributors := [redistributorAtReset false, redistributorAtReset true]
  iccSre _ := 0
  iccPmr _ := 0
  iccIgrpen1 _ := 0
  numRedistributors := 0

theorem DriverV3.shows_twoAtReset : DriverV3.Shows 2 DriverV3.twoAtReset := by
  refine ⟨rfl, by norm_num, fun k r hr => ?_, by simp [twoAtReset], by
    simp [twoAtReset, redistributorAtReset]⟩
  rcases k with _ | _ | k
  · obtain rfl : redistributorAtReset false = r := by simpa [twoAtReset] using hr
    simp [redistributorAtReset]
  · obtain rfl : redistributorAtReset true = r := by simpa [twoAtReset] using hr
    simp [redistributorAtReset, gicrTyperLast]
  · simp [twoAtReset] at hr

/-- The timer interrupt with its default priority on two cores. -/
theorem private_interrupts_iff_two : ∃ g₃', DriverV3.boot [0, 1] 30 120 DriverV3.twoAtReset =
      .ok g₃' ∧
    (((∀ c : Fin 2, DriverV2.Configured 30 120
          (DriverV2.boot 0 [0, 1] 30 120 (DriverV2.atReset (Fin 2))) c) ∧
        ∀ c : Fin 2, ∃ r, g₃'.redistributors[c.val]? = some r ∧
          DriverV3.Configured 30 120 r) ↔
      ∀ c, c ≠ 0 → DriverV2.Configured 30 120 (DriverV2.atReset (Fin 2)) c) :=
  private_interrupts_iff 0 [0, 1] (by norm_num) 120 _ DriverV3.shows_twoAtReset

/-- **The second core is left out**: its bank of the GICv2 distributor is written by
nobody, and the interrupt is not even enabled there. -/
theorem private_interrupts_differ : ¬ ∀ c : Fin 2, DriverV2.Configured 30 120
    (DriverV2.boot 0 [0, 1] 30 120 (DriverV2.atReset (Fin 2))) c := by
  intro hall
  have henabled := (hall 1).enabled
  revert henabled
  decide

end Floss
