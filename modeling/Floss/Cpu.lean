import Floss.Frames
import Mathlib.Data.List.Nodup

/-!
# Cores and their Stacks

The model of `src/cpu.cpp`: the table of cores that `CPU::dt_parse` fills, the start
requests of `CPU::boot_secondary_cores`, and the stack that `setup_stack` (`src/start.S`)
gives a core inside the area reserved by the linker script (`linker/aarch64.ld`).

A core is identified by its affinity value, the contents of `MPIDR` without flags, which is
what the `reg` property of a cpu node holds. Firmware is a parameter: `cpuOn reg` is the
result of a PSCI `CPU_ON` call for the core `reg`. A core that runs already, the boot core,
is not started again.

The assembly keeps the lowest byte of the affinity value, the linker script reserves four
stacks, and the table holds sixteen cores. `own_stacks_iff` says when these fit together.
-/

namespace Floss

/-! ### The table of cores -/

inductive EnableMethod
  | psci
  | spinTable
  | unknown
  deriving DecidableEq, Repr

structure CpuInformation where
  /-- the core's affinity value -/
  reg : ℕ := 0
  enableMethod : EnableMethod := .unknown
  releaseAddress : ℕ := 0
  deriving DecidableEq, Repr

def maxSupportedCpus : ℕ := 16

/-- The cores recorded so far: `num` entries are in use. -/
structure CpuTable where
  num : ℕ := 0
  info : ℕ → CpuInformation := fun _ => {}

/-- The enable method named by a property value. -/
def enableMethodOf (m : Mem) (str : ℕ) : Exec EnableMethod := do
  if (← strcmp m str (cstr "psci")) = 0 then
    return .psci
  else if (← strcmp m str (cstr "spin-table")) = 0 then
    return .spinTable
  else
    .error (.panic "No enable method set. Got: %s\n")

/-- The affinity value in a `reg` property, which must be a single pair. -/
def cpuReg (m : Mem) (cells : NodeCells) (prop : PropFrame) : Exec ℕ := do
  let rpSizeBytes := cells.byteSize
  kassert ((← umod prop.len rpSizeBytes) = 0) "Invalid reg length (%d, rp size %d)\n"
  let numRegPairs ← udiv prop.len rpSizeBytes
  kassert (numRegPairs = 1) "Zero or more than one reg value for CPUs is not supported\n"
  return (← readRegPair m cells prop.value).address

/-- Take over one property of a cpu node. -/
def cpuProp (m : Mem) (f : NodeFrame) (info : CpuInformation) (i : ℕ) :
    Exec CpuInformation := do
  let prop ← f.propAt i
  if (← strcmp m prop.name (cstr "enable-method")) = 0 then
    return { info with enableMethod := ← enableMethodOf m prop.value }
  else if (← strcmp m prop.name (cstr "cpu-release-addr")) = 0 then
    return { info with releaseAddress := ← be64 m prop.value }
  else if (← strcmp m prop.name (cstr "reg")) = 0 then
    return { info with reg := ← cpuReg m f.parentCells prop }
  else
    return info

/-- All properties of a cpu node. -/
def cpuInfo (m : Mem) (f : NodeFrame) (info : CpuInformation) : Exec CpuInformation :=
  (List.range f.nprops).foldlM (cpuProp m f) info

/-- Record the core of a cpu node. -/
def CpuTable.dtParse (m : Mem) (t : CpuTable) (f : NodeFrame) : Exec CpuTable := do
  kassert (t.num < maxSupportedCpus) "precond\n"
  let info ← cpuInfo m f (t.info t.num)
  return { num := t.num + 1, info := Function.update t.info t.num info }

/-! ### Starting cores -/

/-- Ask for the cores of the given entries to be started, in order; the entries asked for,
and how the loop ends. `psciCpuOn` is the function identifier of `CPU_ON`. -/
def bootCores (psciCpuOn : ℕ) : List CpuInformation → List CpuInformation × Exec Unit
  | [] => ([], .ok ())
  | info :: rest =>
      match info.enableMethod with
      | .psci =>
          if psciCpuOn ≠ 0 then
            let (log, r) := bootCores psciCpuOn rest
            (info :: log, r)
          else
            ([], .error (.panic "precond\n"))
      | .spinTable =>
          let (log, r) := bootCores psciCpuOn rest
          (info :: log, r)
      | .unknown => ([], .error (.panic "CPU (%z) with unknown enable method\n"))

/-- All entries but the first. -/
def CpuTable.bootSecondaryCores (psciCpuOn : ℕ) (t : CpuTable) :
    List CpuInformation × Exec Unit :=
  bootCores psciCpuOn ((List.range' 1 (t.num - 1)).map t.info)

/-- A request starts its core: the core does not run yet, and a `CPU_ON` call does not
fail. -/
def CpuInformation.Starts (cpuOn : ℕ → ℤ) (boot : ℕ) (info : CpuInformation) : Prop :=
  info.reg ≠ boot ∧ (info.enableMethod = .psci → 0 ≤ cpuOn info.reg)

instance (cpuOn : ℕ → ℤ) (boot : ℕ) (info : CpuInformation) :
    Decidable (info.Starts cpuOn boot) :=
  inferInstanceAs (Decidable (_ ∧ _))

/-- An entry whose core can be asked for. -/
def CpuInformation.Bootable (psciCpuOn : ℕ) (info : CpuInformation) : Prop :=
  match info.enableMethod with
  | .psci => psciCpuOn ≠ 0
  | .spinTable => True
  | .unknown => False

instance (psciCpuOn : ℕ) : DecidablePred (CpuInformation.Bootable psciCpuOn)
  | ⟨_, .psci, _⟩ => inferInstanceAs (Decidable (psciCpuOn ≠ 0))
  | ⟨_, .spinTable, _⟩ => .isTrue trivial
  | ⟨_, .unknown, _⟩ => .isFalse id

/-- The cores that run once the boot core has asked for all others. -/
def CpuTable.running (psciCpuOn : ℕ) (cpuOn : ℕ → ℤ) (boot : ℕ) (t : CpuTable) : List ℕ :=
  boot :: ((t.bootSecondaryCores psciCpuOn).1.filter fun i => i.Starts cpuOn boot).map
    CpuInformation.reg

/-! ### Stacks -/

def stackSize : ℕ := 0x10000

def ncpus : ℕ := 4

/-- `CPU::id`: the lowest affinity byte. -/
def cpuId (mpidr : ℕ) : ℕ := mpidr &&& 0xff

/-- The bottom of the stack that `setup_stack` computes for a core. -/
def stackBottom (stacksBottom mpidr : ℕ) : ℕ :=
  (stacksBottom + cpuId mpidr * stackSize) % 2 ^ 64

/-- The stack pointer that `setup_stack` leaves. -/
def stackTop (stacksBottom mpidr : ℕ) : ℕ :=
  (stackBottom stacksBottom mpidr + stackSize) % 2 ^ 64

/-- The end of the stacks reserved by the linker script. -/
def stacksTop (stacksBottom : ℕ) : ℕ := stacksBottom + stackSize * ncpus

/-- Every core has a stack of its own: the stacks do not overlap and lie inside the area
reserved for them. -/
structure OwnStacks (stacksBottom : ℕ) (cores : List ℕ) : Prop where
  disjoint : cores.Pairwise fun a b =>
    stackTop stacksBottom a ≤ stackBottom stacksBottom b ∨
      stackTop stacksBottom b ≤ stackBottom stacksBottom a
  inside : ∀ a ∈ cores, stacksBottom ≤ stackBottom stacksBottom a ∧
    stackTop stacksBottom a ≤ stacksTop stacksBottom

section Stacks

variable {stacksBottom : ℕ}

theorem cpuId_lt (a : ℕ) : cpuId a < 256 :=
  Nat.lt_succ_of_le Nat.and_le_right

/-- The stacks lie low enough for the address arithmetic not to wrap around. -/
theorem stackBottom_eq (h : stacksBottom ≤ 2 ^ 48) (a : ℕ) :
    stackBottom stacksBottom a = stacksBottom + cpuId a * stackSize := by
  have := cpuId_lt a
  simp only [stackBottom, stackSize]
  omega

theorem stackTop_eq (h : stacksBottom ≤ 2 ^ 48) (a : ℕ) :
    stackTop stacksBottom a = stacksBottom + cpuId a * stackSize + stackSize := by
  have := cpuId_lt a
  rw [stackTop, stackBottom_eq h]
  simp only [stackSize]
  omega

/-- Two stacks are disjoint exactly if the cores differ in their lowest affinity byte. -/
theorem stacks_disjoint_iff (h : stacksBottom ≤ 2 ^ 48) (a b : ℕ) :
    (stackTop stacksBottom a ≤ stackBottom stacksBottom b ∨
      stackTop stacksBottom b ≤ stackBottom stacksBottom a) ↔ cpuId a ≠ cpuId b := by
  rw [stackTop_eq h, stackTop_eq h, stackBottom_eq h, stackBottom_eq h]
  simp only [stackSize]
  omega

/-- A stack is inside the reserved area exactly if the core is one of the first four. -/
theorem stack_inside_iff (h : stacksBottom ≤ 2 ^ 48) (a : ℕ) :
    (stacksBottom ≤ stackBottom stacksBottom a ∧
      stackTop stacksBottom a ≤ stacksTop stacksBottom) ↔ cpuId a < ncpus := by
  rw [stackTop_eq h, stackBottom_eq h]
  simp only [stacksTop, stackSize, ncpus]
  omega

/-- Stacks are the cores' own exactly if the lowest affinity bytes are distinct and below
the number of stacks. -/
theorem ownStacks_iff (h : stacksBottom ≤ 2 ^ 48) (cores : List ℕ) :
    OwnStacks stacksBottom cores ↔
      (cores.map cpuId).Nodup ∧ ∀ a ∈ cores, cpuId a < ncpus := by
  have hdisjoint : (cores.Pairwise fun a b =>
      stackTop stacksBottom a ≤ stackBottom stacksBottom b ∨
        stackTop stacksBottom b ≤ stackBottom stacksBottom a) ↔ (cores.map cpuId).Nodup := by
    rw [List.Nodup, List.pairwise_map]
    exact List.Pairwise.iff fun {a b} => stacks_disjoint_iff h a b
  constructor
  · rintro ⟨hd, hin⟩
    exact ⟨hdisjoint.mp hd, fun a ha => (stack_inside_iff h a).mp (hin a ha)⟩
  · rintro ⟨hd, hin⟩
    exact ⟨hdisjoint.mpr hd, fun a ha => (stack_inside_iff h a).mpr (hin a ha)⟩

end Stacks

/-! ### From cpu nodes to stacks -/

/-- The table that records the given entries. -/
def CpuTable.ofList (infos : List CpuInformation) : CpuTable :=
  ⟨infos.length, fun i => infos.getD i {}⟩

/-- One more entry. -/
theorem update_getD (infos : List CpuInformation) (info : CpuInformation) :
    Function.update (fun i => infos.getD i {}) infos.length info =
      fun i => (infos ++ [info]).getD i {} := by
  funext i
  by_cases h : i = infos.length
  · simp [h]
  · rw [Function.update_of_ne h]
    rcases Nat.lt_or_gt_of_ne h with hlt | hgt
    · simp [List.getElem?_append_left hlt]
    · have h1 : infos.length ≤ i := by omega
      have h2 : (infos ++ [info]).length ≤ i := by
        simp only [List.length_append, List.length_singleton]
        omega
      simp [List.getElem?_eq_none h1, List.getElem?_eq_none h2]

/-- **Recording cores**: `CPU::dt_parse` on one cpu node after the other leaves one entry per
node, in order. The induction is on the nodes still to come. -/
theorem dtParse_run {m : Mem} {nodes : List NodeFrame} {infos : List CpuInformation}
    (hinfos : List.Forall₂ (fun f info => cpuInfo m f {} = .ok info) nodes infos)
    (hcap : infos.length ≤ maxSupportedCpus) :
    nodes.foldlM (CpuTable.dtParse m) {} = .ok (.ofList infos) := by
  suffices H : ∀ (done : List CpuInformation),
      done.length + infos.length ≤ maxSupportedCpus →
      nodes.foldlM (CpuTable.dtParse m) (.ofList done) = .ok (.ofList (done ++ infos)) from
    H [] (by simpa using hcap)
  clear hcap
  induction hinfos with
  | nil => simp
  | @cons f info nodes infos hinfo _ ih =>
      intro done hcap
      simp only [List.length_cons] at hcap
      have hlt : (CpuTable.ofList done).num < maxSupportedCpus := by
        simp only [CpuTable.ofList]
        omega
      have hstep : CpuTable.dtParse m (.ofList done) f = .ok (.ofList (done ++ [info])) := by
        have hempty : done.getD done.length ({} : CpuInformation) = {} := by simp
        rw [CpuTable.dtParse, kassert_of hlt, ok_bind]
        simp only [CpuTable.ofList, hempty, hinfo, ok_bind, pure_eq_ok, update_getD,
          List.length_append, List.length_singleton]
      rw [List.foldlM_cons, hstep, ok_bind, ih (done ++ [info]) (by simp; omega)]
      simp

/-- The requests go to the entries up to the first that cannot be asked for. -/
theorem fst_bootCores (psciCpuOn : ℕ) (infos : List CpuInformation) :
    (bootCores psciCpuOn infos).1 = infos.takeWhile fun i => i.Bootable psciCpuOn := by
  induction infos with
  | nil => rfl
  | cons info infos ih =>
      cases hm : info.enableMethod with
      | psci =>
          by_cases h0 : psciCpuOn = 0 <;> simp [bootCores, CpuInformation.Bootable, hm, h0, ih]
      | spinTable => simp [bootCores, CpuInformation.Bootable, hm, ih]
      | unknown => simp [bootCores, CpuInformation.Bootable, hm]

/-- The entries after the first. -/
theorem map_ofList_range' (infos : List CpuInformation) :
    (List.range' 1 (infos.length - 1)).map (CpuTable.ofList infos).info = infos.tail := by
  refine List.ext_getElem (by simp) fun i h1 h2 => ?_
  have hi : i + 1 < infos.length := by
    simp only [List.length_tail] at h2
    omega
  simp [CpuTable.ofList, Nat.add_comm 1, List.getElem?_eq_getElem hi]

/-- The requests for a table of entries: all but the first, up to one that cannot be asked
for. -/
theorem fst_bootSecondaryCores (psciCpuOn : ℕ) (infos : List CpuInformation) :
    ((CpuTable.ofList infos).bootSecondaryCores psciCpuOn).1 =
      infos.tail.takeWhile fun i => i.Bootable psciCpuOn := by
  have hnum : (CpuTable.ofList infos).num = infos.length := rfl
  rw [CpuTable.bootSecondaryCores, hnum, map_ofList_range', fst_bootCores]

/-- The boot core and the cores that get started, in terms of the cpu nodes: all entries but
the first, up to one that cannot be asked for, if the request starts the core. -/
def startedCores (psciCpuOn : ℕ) (cpuOn : ℕ → ℤ) (boot : ℕ) (infos : List CpuInformation) :
    List ℕ :=
  boot :: ((infos.tail.takeWhile fun i => i.Bootable psciCpuOn).filter fun i =>
    i.Starts cpuOn boot).map CpuInformation.reg

theorem running_ofList (psciCpuOn : ℕ) (cpuOn : ℕ → ℤ) (boot : ℕ)
    (infos : List CpuInformation) :
    (CpuTable.ofList infos).running psciCpuOn cpuOn boot =
      startedCores psciCpuOn cpuOn boot infos := by
  rw [CpuTable.running, fst_bootSecondaryCores, startedCores]

/-- The property names and values of three cores, with affinity values `0`, `1` and
`0x100`. -/
def coreMem : Mem :=
  Mem.ofBytes 4096 (cstr "enable-method" ++ [0] ++ cstr "psci" ++ [0] ++ cstr "reg" ++ [0] ++
    bytes32 0 ++ bytes32 1 ++ bytes32 0x100)

/-- The node of a core whose affinity value is at address `reg`. -/
def coreNode (reg : ℕ) : NodeFrame where
  name := nullptr
  parentCells := { address := 1, size := 0 }
  nprops := 2
  props i := if i = 0 then ⟨4096, 4110, 5⟩ else ⟨4115, reg, 4⟩

/-- The requests ask for every recorded core but the boot core once, and for no other. -/
def AsksForOthersOnce (boot : ℕ) (infos requests : List CpuInformation) : Prop :=
  (∀ info ∈ requests, info ∈ infos) ∧
    ∀ info ∈ infos, requests.count info = if info.reg = boot then 0 else 1

/-- **Who is asked for.** For cores with distinct affinity values recorded in any document
order, the boot core among them, the requests ask for each other core once and not for the
boot core if and only if the boot core's node came first and every other node has an enable
method that can be used. The loop skips the first entry of the table; `_start` picks the
boot core by its affinity value. -/
theorem asks_for_others_once_iff {m : Mem} {nodes : List NodeFrame}
    {infos : List CpuInformation}
    (hinfos : List.Forall₂ (fun f info => cpuInfo m f {} = .ok info) nodes infos)
    (hcap : infos.length ≤ maxSupportedCpus) (hregs : (infos.map CpuInformation.reg).Nodup)
    {boot : ℕ} (hboot : boot ∈ infos.map CpuInformation.reg) (psciCpuOn : ℕ) :
    ∃ t, nodes.foldlM (CpuTable.dtParse m) {} = .ok t ∧
      (AsksForOthersOnce boot infos (t.bootSecondaryCores psciCpuOn).1 ↔
        infos.head?.map CpuInformation.reg = some boot ∧
          ∀ info ∈ infos.tail, info.Bootable psciCpuOn) := by
  refine ⟨.ofList infos, dtParse_run hinfos hcap, ?_⟩
  rw [fst_bootSecondaryCores]
  cases infos with
  | nil => simp at hboot
  | cons first rest =>
      obtain ⟨hfirst, hrest⟩ := List.nodup_cons.mp (List.Nodup.of_map _ hregs)
      have hreg : ∀ info ∈ rest, info.reg ≠ first.reg := by
        intro info hinfo h
        exact (List.nodup_cons.mp hregs).1 (h ▸ List.mem_map_of_mem hinfo)
      simp only [List.tail_cons, List.head?_cons, Option.map_some, Option.some.injEq]
      constructor
      · rintro ⟨-, hcount⟩
        have hfb : first.reg = boot := by
          by_contra hne
          have h1 := hcount first List.mem_cons_self
          rw [if_neg hne] at h1
          have hmem := List.one_le_count_iff.mp h1.ge
          exact hfirst ((List.takeWhile_subset _) hmem)
        refine ⟨hfb, fun info hinfo => ?_⟩
        have h1 := hcount info (List.mem_cons_of_mem _ hinfo)
        rw [if_neg (hfb ▸ hreg info hinfo)] at h1
        have hmem := List.one_le_count_iff.mp h1.ge
        have hboot := List.mem_takeWhile_imp hmem
        exact of_decide_eq_true hboot
      · rintro ⟨hfb, hall⟩
        have hlog : rest.takeWhile (fun i => i.Bootable psciCpuOn) = rest :=
          List.takeWhile_eq_self_iff.mpr fun i hi => decide_eq_true (hall i hi)
        rw [hlog]
        refine ⟨fun info hinfo => List.mem_cons_of_mem _ hinfo, fun info hinfo => ?_⟩
        rcases List.mem_cons.mp hinfo with rfl | hinfo
        · rw [if_pos hfb, List.count_eq_zero.mpr hfirst]
        · rw [if_neg (hfb ▸ hreg info hinfo), List.count_eq_one_of_mem hrest hinfo]

/-- Two cores, the boot core first: the other one is asked for. -/
theorem asks_for_others_once_boot_first :
    ∃ t, [coreNode 4119, coreNode 4123].foldlM (CpuTable.dtParse coreMem) {} = .ok t ∧
      AsksForOthersOnce 0 [⟨0, .psci, 0⟩, ⟨1, .psci, 0⟩]
        (t.bootSecondaryCores 0xC4000003).1 := by
  have hinfos : List.Forall₂ (fun f info => cpuInfo coreMem f {} = .ok info)
      [coreNode 4119, coreNode 4123] [⟨0, .psci, 0⟩, ⟨1, .psci, 0⟩] :=
    .cons rfl (.cons rfl .nil)
  have hboot : 0 ∈ ([⟨0, .psci, 0⟩, ⟨1, .psci, 0⟩] : List CpuInformation).map
      CpuInformation.reg := by decide
  obtain ⟨t, hrun, hiff⟩ := asks_for_others_once_iff hinfos (by decide) (by decide) hboot
    0xC4000003
  exact ⟨t, hrun, hiff.mpr (by decide)⟩

/-- **The boot core last.** The same cores in the other order: the running core `0` is asked
for and core `1` never is. -/
theorem asks_for_boot_core :
    cpuId 0 = 0 ∧
      ∃ t, [coreNode 4123, coreNode 4119].foldlM (CpuTable.dtParse coreMem) {} = .ok t ∧
        (t.bootSecondaryCores 0xC4000003).1 = [⟨0, .psci, 0⟩] ∧
        ¬ AsksForOthersOnce 0 [⟨1, .psci, 0⟩, ⟨0, .psci, 0⟩]
          (t.bootSecondaryCores 0xC4000003).1 := by
  have hinfos : List.Forall₂ (fun f info => cpuInfo coreMem f {} = .ok info)
      [coreNode 4123, coreNode 4119] [⟨1, .psci, 0⟩, ⟨0, .psci, 0⟩] :=
    .cons rfl (.cons rfl .nil)
  have hlog : ((CpuTable.ofList [⟨1, .psci, 0⟩, ⟨0, .psci, 0⟩]).bootSecondaryCores
      0xC4000003).1 = [⟨0, .psci, 0⟩] := by
    rw [fst_bootSecondaryCores]
    rfl
  refine ⟨rfl, _, dtParse_run hinfos (by decide), hlog, ?_⟩
  rw [hlog]
  rintro ⟨-, hcount⟩
  exact absurd (hcount ⟨1, .psci, 0⟩ (by simp)) (by decide)

/-- **Stacks, exactly.** For the cores recorded from any cpu nodes that fit into the table,
the boot core and all cores that get started have stacks of their own if and only if their
lowest affinity bytes are distinct and below the number of stacks the linker script
reserves. -/
theorem own_stacks_iff {m : Mem} {nodes : List NodeFrame} {infos : List CpuInformation}
    {stacksBottom : ℕ}
    (hinfos : List.Forall₂ (fun f info => cpuInfo m f {} = .ok info) nodes infos)
    (hcap : infos.length ≤ maxSupportedCpus) (hplace : stacksBottom ≤ 2 ^ 48)
    (psciCpuOn : ℕ) (cpuOn : ℕ → ℤ) (boot : ℕ) :
    ∃ t, nodes.foldlM (CpuTable.dtParse m) {} = .ok t ∧
      (OwnStacks stacksBottom (t.running psciCpuOn cpuOn boot) ↔
        ((startedCores psciCpuOn cpuOn boot infos).map cpuId).Nodup ∧
          ∀ a ∈ startedCores psciCpuOn cpuOn boot infos, cpuId a < ncpus) := by
  refine ⟨.ofList infos, dtParse_run hinfos hcap, ?_⟩
  rw [running_ofList]
  exact ownStacks_iff hplace _

/-- Two cores of one cluster have stacks of their own. -/
theorem own_stacks_one_cluster :
    ∃ t, [coreNode 4119, coreNode 4123].foldlM (CpuTable.dtParse coreMem) {} = .ok t ∧
      OwnStacks 0x40100000 (t.running 0xC4000003 (fun _ => 0) 0) := by
  have hinfos : List.Forall₂ (fun f info => cpuInfo coreMem f {} = .ok info)
      [coreNode 4119, coreNode 4123] [⟨0, .psci, 0⟩, ⟨1, .psci, 0⟩] :=
    .cons rfl (.cons rfl .nil)
  have hplace : 0x40100000 ≤ 2 ^ 48 := by decide
  obtain ⟨t, hrun, hiff⟩ := own_stacks_iff hinfos (by decide) hplace 0xC4000003 (fun _ => 0) 0
  exact ⟨t, hrun, hiff.mpr (by decide)⟩

/-- **A shared stack.** Two cores with distinct affinity values, the first of two clusters:
both get the first stack. -/
theorem shared_stack_two_clusters :
    ∃ t, [coreNode 4119, coreNode 4127].foldlM (CpuTable.dtParse coreMem) {} = .ok t ∧
      t.num = 2 ∧ (t.info 0).reg = 0 ∧ (t.info 1).reg = 0x100 ∧
      ¬ OwnStacks 0x40100000 (t.running 0xC4000003 (fun _ => 0) 0) := by
  have hinfos : List.Forall₂ (fun f info => cpuInfo coreMem f {} = .ok info)
      [coreNode 4119, coreNode 4127] [⟨0, .psci, 0⟩, ⟨0x100, .psci, 0⟩] :=
    .cons rfl (.cons rfl .nil)
  refine ⟨_, dtParse_run hinfos (by decide), rfl, rfl, rfl, fun hown => ?_⟩
  rw [running_ofList, ownStacks_iff (by decide)] at hown
  exact absurd hown (by decide)

end Floss
