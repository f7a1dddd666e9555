import Floss.Gic

/-!
# Interrupts One by One

What `initialize_interrupt()` does to the registers, seen as a table with an entry for each
interrupt (`Irq`): it replaces the entry of its interrupt and leaves all others. The
registers hold 32 interrupts in a word, or one in a byte, and the banks of words and bytes
follow each other in memory, so this is a statement about addresses.

The registers of a GICv2 are decoded from addresses in `Floss.Gic`. For a GICv3 this is done
here (`DriverV3.Mmio`): a word or byte of the distributor, or one of the frame of a
redistributor, at the stride at which these lie in memory; `DriverV3.Mmio.initializeInterrupt_eq`
says that the driver then does to the registers what `DriverV3.initializeInterrupt` says.

* `updates_of_not_mem`, `updates_last`: what a sequence of updates leaves in a table;
* `DriverV2.view_initializeInterrupt`, `DriverV3.updated_initializeInterrupt`: one call;
* `interrupts_configured_exactly`: any sequence of calls under both drivers.
-/

namespace Floss

/-! ### Tables of interrupts -/

/-- How an interrupt is configured. -/
structure Irq where
  enabled : Bool
  group1 : Bool
  priority : UInt8
  deriving DecidableEq, Repr

/-- The entry of an interrupt that `initialize_interrupt()` was called for. -/
def configured (priority : UInt8) : Irq := ⟨true, true, priority⟩

/-- A table with a configured interrupt, entry by entry. -/
theorem update_configured (t : ℕ → Irq) (id : ℕ) (priority : UInt8) (i : ℕ) :
    Function.update t id (configured priority) i =
      ⟨(t i).enabled || decide (i = id), (t i).group1 || decide (i = id),
        if i = id then priority else (t i).priority⟩ := by
  rcases eq_or_ne i id with rfl | hi
  · rw [Function.update_self]
    simp [configured]
  · rw [Function.update_of_ne hi]
    simp [hi]

section Updates

variable {κ α β : Type} [DecidableEq κ]

/-- Update a table at one key after the other. -/
def updates (f : β → α) (calls : List (κ × β)) (t : κ → α) : κ → α :=
  calls.foldl (fun t call => Function.update t call.1 (f call.2)) t

variable {f : β → α} {t : κ → α} {k : κ}

@[simp] theorem updates_cons (call : κ × β) (calls : List (κ × β)) :
    updates f (call :: calls) t = updates f calls (Function.update t call.1 (f call.2)) := rfl

/-- The updated entry of a key depends on its own entry only. -/
theorem updates_congr {calls : List (κ × β)} {t' : κ → α} (h : t k = t' k) :
    updates f calls t k = updates f calls t' k := by
  induction calls generalizing t t' with
  | nil => exact h
  | cons call calls ih =>
    rw [updates_cons, updates_cons]
    refine ih ?_
    rcases eq_or_ne k call.1 with rfl | hne
    · rw [Function.update_self, Function.update_self]
    · rw [Function.update_of_ne hne, Function.update_of_ne hne, h]

/-- A key that is not among the updates keeps its entry. -/
theorem updates_of_not_mem {calls : List (κ × β)} (h : k ∉ calls.map Prod.fst) :
    updates f calls t k = t k := by
  induction calls generalizing t with
  | nil => rfl
  | cons call calls ih =>
    rw [List.map_cons, List.mem_cons, not_or] at h
    rw [updates_cons]
    exact (ih h.2).trans (Function.update_of_ne h.1 _ _)

/-- The last update of a key counts. -/
theorem updates_last {pre post : List (κ × β)} {b : β} (h : k ∉ post.map Prod.fst) :
    updates f (pre ++ (k, b) :: post) t k = f b := by
  rw [updates, List.foldl_append, List.foldl_cons]
  exact (updates_of_not_mem h).trans (Function.update_self _ _ _)

end Updates

/-- What a sequence of calls for interrupts and priorities does to the entry of one
interrupt. -/
structure Configures (calls : List (ℕ × UInt8)) (id : ℕ) (before after : Irq) : Prop where
  enabled : after.enabled = true ↔ before.enabled = true ∨ id ∈ calls.map Prod.fst
  group1 : after.group1 = true ↔ before.group1 = true ∨ id ∈ calls.map Prod.fst
  /-- the last priority given for the interrupt -/
  priority : ∀ pre priority post, calls = pre ++ (id, priority) :: post →
    id ∉ post.map Prod.fst → after.priority = priority
  same : id ∉ calls.map Prod.fst → after = before

/-- The last occurrence of a key. -/
theorem exists_last_of_mem {κ β : Type} [DecidableEq κ] {calls : List (κ × β)} {k : κ}
    (h : k ∈ calls.map Prod.fst) :
    ∃ pre b post, calls = pre ++ (k, b) :: post ∧ k ∉ post.map Prod.fst := by
  induction calls with
  | nil => simp at h
  | cons call calls ih =>
    by_cases hmem : k ∈ calls.map Prod.fst
    · obtain ⟨pre, b, post, rfl, hpost⟩ := ih hmem
      exact ⟨call :: pre, b, post, rfl, hpost⟩
    · obtain rfl : k = call.1 := by simpa [hmem] using h
      exact ⟨[], call.2, calls, rfl, hmem⟩

/-- Updates with the entry of a configured interrupt. -/
theorem configures_updates (calls : List (ℕ × UInt8)) (t : ℕ → Irq) (id : ℕ) :
    Configures calls id (t id) (updates configured calls t id) := by
  by_cases hmem : id ∈ calls.map Prod.fst
  · obtain ⟨pre, p, post, rfl, hpost⟩ := exists_last_of_mem hmem
    have hlast : updates configured (pre ++ (id, p) :: post) t id = configured p :=
      updates_last hpost
    refine ⟨by simp [hlast, configured], by simp [hlast, configured], ?_,
      fun h => absurd hmem h⟩
    intro pre' p' post' hcalls hpost'
    rw [hcalls, updates_last hpost', configured]
  · have hsame : updates configured calls t id = t id := updates_of_not_mem hmem
    refine ⟨by simp only [hsame, hmem, or_false], by simp only [hsame, hmem, or_false], ?_,
      fun _ => hsame⟩
    intro pre p post hcalls _
    rw [hcalls] at hmem
    simp at hmem

/-! ### Bits of a bank of words -/

/-- Bit `id` of a bank of 32-bit words. -/
def wordBit (f : ℕ → BitVec 32) (id : ℕ) : Bool := (f (id / 32)).getLsbD (id % 32)

/-- Setting a bit of a word. -/
theorem getLsbD_or_bit (x : BitVec 32) {s : ℕ} (hs : s < 32) (i : ℕ) :
    (x ||| (1#32 <<< s)).getLsbD i = (x.getLsbD i || decide (i = s)) := by
  rw [← BitVec.twoPow_eq, BitVec.getLsbD_or, BitVec.getLsbD_twoPow]
  simp [hs, eq_comm]

/-- Setting a bit in its word sets that bit of the bank, and no other. -/
theorem wordBit_set {f f' : ℕ → BitVec 32} {id : ℕ}
    (hset : ∀ k, f' k = if k = id / 32 then f (id / 32) ||| (1#32 <<< (id % 32)) else f k)
    (i : ℕ) : wordBit f' i = (wordBit f i || decide (i = id)) := by
  rw [wordBit, wordBit, hset]
  by_cases hword : i / 32 = id / 32
  · have hiff : i % 32 = id % 32 ↔ i = id := by omega
    rw [if_pos hword, hword, getLsbD_or_bit _ (Nat.mod_lt id (by omega))]
    simp only [hiff]
  · have hne : i ≠ id := fun h => hword (h ▸ rfl)
    rw [if_neg hword]
    simp [hne]

/-! ### GICv2 -/

namespace DriverV2

variable {ι : Type} [DecidableEq ι]

/-- An interrupt as core `c` sees it in the distributor. -/
def view (g : State ι) (c : ι) (id : ℕ) : Irq :=
  ⟨wordBit (g.enabled c) id, wordBit (g.igroupr c) id, g.ipriorityr c id⟩

/-- The registers that are not banked are the same for all cores. -/
structure Shared (g : State ι) : Prop where
  igroupr : ∀ c c' n, n ≠ 0 → g.igroupr c n = g.igroupr c' n
  enabled : ∀ c c' n, n ≠ 0 → g.enabled c n = g.enabled c' n
  ipriorityr : ∀ c c' id, 31 < id → g.ipriorityr c id = g.ipriorityr c' id

/-- A sequence of calls of `initialize_interrupt()` on one core. -/
def initializeInterrupts (core : ι) (calls : List (ℕ × UInt8)) (g : State ι) : State ι :=
  calls.foldl (fun g call => initializeInterrupt core call.1 call.2 g) g

/-- A write by any core leaves the copies of a register alike that is not banked. -/
theorem writeBanked_shared {α : Type} {f : ι → ℕ → α} {core c c' : ι} {banked : Bool}
    {n k : ℕ} {v : α} (hf : f c k = f c' k) (hk : k = n → banked = false) :
    writeBanked banked f core n v c k = writeBanked banked f core n v c' k := by
  rw [writeBanked, writeBanked]
  rcases eq_or_ne k n with rfl | hkn
  · rw [if_pos ⟨rfl, .inl (hk rfl)⟩, if_pos ⟨rfl, .inl (hk rfl)⟩]
  · rw [if_neg fun h => hkn h.1, if_neg fun h => hkn h.1, hf]

/-- What the writing core sees. -/
theorem writeBanked_own {α : Type} (f : ι → ℕ → α) (core : ι) (banked : Bool) (n k : ℕ)
    (v : α) : writeBanked banked f core n v core k = if k = n then v else f core k := by
  simp [writeBanked]

/-- `set_interrupt_routing` writes the byte of a shared interrupt. -/
theorem setInterruptRouting_eq (core : ι) {id : ℕ} (hid : id < 1024) (g : State ι) :
    setInterruptRouting core id g =
      { g with
        itargetsr :=
          if id > 31 then writeBanked false g.itargetsr core id 1 else g.itargetsr } := by
  rw [setInterruptRouting]
  by_cases hshared : id > 31
  · have hprio : ¬ (gicdIpriorityBase ≤ gicdItargetsrBase + id ∧
        gicdItargetsrBase + id < gicdItargetsrBase) := by omega
    have hrange : gicdItargetsrBase ≤ gicdItargetsrBase + id ∧
        gicdItargetsrBase + id < 0xC00 := by
      norm_num [gicdItargetsrBase]
      omega
    have hindex : gicdItargetsrBase + id - gicdItargetsrBase = id := by omega
    have hbanked : decide (id < 32) = false := decide_eq_false (by omega)
    rw [if_pos hshared, if_pos hshared, writeDistributorByte, if_neg hprio, if_pos hrange,
      hindex]
    simp only [hbanked]
  · rw [if_neg hshared, if_neg hshared]

/-- **The registers after `initialize_interrupt()`**. -/
theorem initializeInterrupt_eq (core : ι) {id : ℕ} (hid : id < 1024) (priority : UInt8)
    (g : State ι) : initializeInterrupt core id priority g =
      { g with
        ipriorityr := writeBanked (decide (id < 32)) g.ipriorityr core id priority
        igroupr := writeBanked (id / 32 == 0) g.igroupr core (id / 32)
          (g.igroupr core (id / 32) ||| (1#32 <<< (id % 32)))
        itargetsr := if id > 31 then writeBanked false g.itargetsr core id 1 else g.itargetsr
        enabled := writeBanked (id / 32 == 0) g.enabled core (id / 32)
          (g.enabled core (id / 32) ||| (1#32 <<< (id % 32))) } := by
  rw [initializeInterrupt, setInterruptPriority_eq core hid, setInterruptGroup_eq core hid,
    setInterruptRouting_eq core hid, enableInterrupt_eq core hid]

/-- **One call** replaces the entry of its interrupt, as its core sees it. -/
theorem view_initializeInterrupt (core : ι) {id : ℕ} (hid : id < 1024) (priority : UInt8)
    (g : State ι) : view (initializeInterrupt core id priority g) core =
      Function.update (view g core) id (configured priority) := by
  funext i
  have hword : ∀ f : ι → ℕ → BitVec 32, wordBit (writeBanked (id / 32 == 0) f core (id / 32)
      (f core (id / 32) ||| (1#32 <<< (id % 32))) core) i =
        (wordBit (f core) i || decide (i = id)) :=
    fun f => wordBit_set (fun k => writeBanked_own f core _ _ k _) i
  rw [initializeInterrupt_eq core hid, update_configured]
  simp only [view, hword, writeBanked_own]

/-- What is shared stays so. -/
theorem Shared.initializeInterrupt {g : State ι} (h : Shared g) (core : ι) {id : ℕ}
    (hid : id < 1024) (priority : UInt8) : Shared (initializeInterrupt core id priority g) := by
  have hword : ∀ {n : ℕ}, n ≠ 0 → n = id / 32 → (id / 32 == 0) = false := by
    rintro n hn rfl
    simpa using hn
  rw [initializeInterrupt_eq core hid]
  constructor
  · intro c c' n hn
    exact writeBanked_shared (h.igroupr c c' n hn) (hword hn)
  · intro c c' n hn
    exact writeBanked_shared (h.enabled c c' n hn) (hword hn)
  · intro c c' i hi
    refine writeBanked_shared (h.ipriorityr c c' i hi) fun hiid => ?_
    exact decide_eq_false (by omega)

omit [DecidableEq ι] in
/-- A shared interrupt looks alike to all cores. -/
theorem Shared.view_eq {g : State ι} (h : Shared g) (c c' : ι) {id : ℕ} (hid : 31 < id) :
    view g c id = view g c' id := by
  have hword : id / 32 ≠ 0 := by omega
  rw [view, view, wordBit, wordBit, wordBit, wordBit, h.enabled c c' _ hword,
    h.igroupr c c' _ hword, h.ipriorityr c c' id hid]

omit [DecidableEq ι] in
/-- The private interrupts of a bank that did not change. -/
theorem SameBank.view_eq {c : ι} {g g' : State ι} (h : SameBank c g g') {id : ℕ}
    (hid : id ≤ 31) : view g' c id = view g c id := by
  have hword : id / 32 = 0 := by omega
  rw [view, view, wordBit, wordBit, wordBit, wordBit, hword, h.enabled, h.igroupr,
    h.ipriorityr id (by omega)]

/-- The targets of an interrupt change only if it is shared and named. -/
theorem itargetsr_initializeInterrupt (core : ι) {id : ℕ} (hid : id < 1024)
    (priority : UInt8) (g : State ι) (c : ι) {i : ℕ} (hi : i ≤ 31 ∨ i ≠ id) :
    (initializeInterrupt core id priority g).itargetsr c i = g.itargetsr c i := by
  rw [initializeInterrupt_eq core hid]
  by_cases hshared : id > 31
  · have hne : i ≠ id := by omega
    simp [hshared, writeBanked, hne]
  · simp [hshared]

/-- What a sequence of calls on one core does to the registers of the distributor. -/
structure ConfiguresOnly (core : ι) (calls : List (ℕ × UInt8)) (g g' : State ι) : Prop where
  own : ∀ id, Configures calls id (view g core id) (view g' core id)
  /-- the private interrupts of the other cores -/
  others : ∀ c, c ≠ core → ∀ id ≤ 31, view g' c id = view g c id
  /-- the shared interrupts, as every core sees them -/
  shared : Shared g → ∀ c, ∀ id > 31, Configures calls id (view g c id) (view g' c id)
  itargetsr : ∀ c id, g'.itargetsr c id ≠ g.itargetsr c id →
    31 < id ∧ id ∈ calls.map Prod.fst

/-- The table of the calling core after a sequence of calls. -/
theorem view_initializeInterrupts (core : ι) {calls : List (ℕ × UInt8)}
    (hids : ∀ call ∈ calls, call.1 < 1024) (g : State ι) :
    view (initializeInterrupts core calls g) core =
      updates configured calls (view g core) := by
  induction calls generalizing g with
  | nil => rfl
  | cons call calls ih =>
    rw [List.forall_mem_cons] at hids
    rw [updates_cons, ← view_initializeInterrupt core hids.1]
    exact ih hids.2 _

/-- The banks of the other cores after a sequence of calls. -/
theorem sameBank_initializeInterrupts {core c : ι} (hc : c ≠ core)
    (calls : List (ℕ × UInt8)) (g : State ι) :
    SameBank c g (initializeInterrupts core calls g) := by
  induction calls generalizing g with
  | nil => exact SameBank.refl c g
  | cons call calls ih =>
    exact (sameBank_initializeInterrupt hc call.1 call.2 g).trans (ih _)

/-- What is shared stays so in a sequence of calls. -/
theorem Shared.initializeInterrupts {g : State ι} (h : Shared g) (core : ι)
    {calls : List (ℕ × UInt8)} (hids : ∀ call ∈ calls, call.1 < 1024) :
    Shared (initializeInterrupts core calls g) := by
  induction calls generalizing g with
  | nil => exact h
  | cons call calls ih =>
    rw [List.forall_mem_cons] at hids
    exact ih (h.initializeInterrupt core hids.1 call.2) hids.2

/-- The targets after a sequence of calls. -/
theorem itargetsr_initializeInterrupts (core : ι) {calls : List (ℕ × UInt8)}
    (hids : ∀ call ∈ calls, call.1 < 1024) (g : State ι) (c : ι) {i : ℕ}
    (hi : i ≤ 31 ∨ i ∉ calls.map Prod.fst) :
    (initializeInterrupts core calls g).itargetsr c i = g.itargetsr c i := by
  induction calls generalizing g with
  | nil => rfl
  | cons call calls ih =>
    rw [List.forall_mem_cons] at hids
    rw [List.map_cons, List.mem_cons, not_or] at hi
    have hrest := ih hids.2 (initializeInterrupt core call.1 call.2 g) (hi.imp_right And.right)
    exact hrest.trans
      (itargetsr_initializeInterrupt core hids.1 call.2 g c (hi.imp_right And.left))

/-- **A sequence of calls under the GICv2 driver** configures the interrupts it names. -/
theorem configuresOnly_initializeInterrupts (core : ι) {calls : List (ℕ × UInt8)}
    (hids : ∀ call ∈ calls, call.1 < 1024) (g : State ι) :
    ConfiguresOnly core calls g (initializeInterrupts core calls g) := by
  have hown := view_initializeInterrupts core hids g
  constructor
  · intro id
    rw [hown]
    exact configures_updates calls _ id
  · intro c hc id hid
    exact (sameBank_initializeInterrupts hc calls g).view_eq hid
  · intro h c id hid
    rw [h.view_eq c core hid, (h.initializeInterrupts core hids).view_eq c core hid, hown]
    exact configures_updates calls _ id
  · intro c id hne
    by_contra hnot
    have hi : id ≤ 31 ∨ id ∉ calls.map Prod.fst := by
      rwa [not_and_or, not_lt] at hnot
    exact hne (itargetsr_initializeInterrupts core hids g c hi)

end DriverV2

/-! ### GICv3: the registers by their address -/

namespace DriverV3

def gicdCtlr : ℕ := 0x0000
def gicdIgroupr : ℕ := 0x80
def gicdIsenabler : ℕ := 0x100
def gicdIcenabler : ℕ := 0x180
def gicdIpriorityBase : ℕ := 0x400

def gicrStride : ℕ := 0x20000
def gicrSgiOffset : ℕ := 0x10000
def gicrRdWaker : ℕ := 0x014
def gicrSgiIgroupr0 : ℕ := 0x080
def gicrSgiIsenabler0 : ℕ := 0x100
def gicrSgiIcenabler0 : ℕ := 0x180
def gicrSgiIpriorityrBase : ℕ := 0x400

/-- A word write to the distributor; writes to `ISENABLER` set bits, writes to `ICENABLER`
clear them. -/
def writeDistributor (offset : ℕ) (v : BitVec 32) (g : State) : State :=
  if offset = gicdCtlr then
    { g with ctlr := v }
  else if gicdIgroupr ≤ offset ∧ offset < gicdIsenabler then
    let n := (offset - gicdIgroupr) / 4
    { g with igroupr := Function.update g.igroupr n v }
  else if gicdIsenabler ≤ offset ∧ offset < gicdIcenabler then
    let n := (offset - gicdIsenabler) / 4
    { g with enabled := Function.update g.enabled n (g.enabled n ||| v) }
  else if gicdIcenabler ≤ offset ∧ offset < 0x200 then
    let n := (offset - gicdIcenabler) / 4
    { g with enabled := Function.update g.enabled n (g.enabled n &&& ~~~v) }
  else
    g

/-- A word read from the distributor, of the registers the driver reads. -/
def readDistributor (offset : ℕ) (g : State) : BitVec 32 :=
  if gicdIgroupr ≤ offset ∧ offset < gicdIsenabler then
    g.igroupr ((offset - gicdIgroupr) / 4)
  else
    g.ctlr

/-- A byte write to the distributor. -/
def writeDistributorByte (offset : ℕ) (v : UInt8) (g : State) : State :=
  if gicdIpriorityBase ≤ offset ∧ offset < 0x800 then
    { g with ipriorityr := Function.update g.ipriorityr (offset - gicdIpriorityBase) v }
  else
    g

/-- A word write to a redistributor. Its second frame starts at `GICR_SGI_OFFSET`. -/
def Redistributor.write (offset : ℕ) (v : BitVec 32) (r : Redistributor) : Redistributor :=
  if offset = gicrRdWaker then
    { r with waker := v }
  else if offset = gicrSgiOffset + gicrSgiIgroupr0 then
    { r with igroupr0 := v }
  else if offset = gicrSgiOffset + gicrSgiIsenabler0 then
    { r with enabled0 := r.enabled0 ||| v }
  else if offset = gicrSgiOffset + gicrSgiIcenabler0 then
    { r with enabled0 := r.enabled0 &&& ~~~v }
  else
    r

/-- A word read from a redistributor, of the registers the driver reads. -/
def Redistributor.read (offset : ℕ) (r : Redistributor) : BitVec 32 :=
  if offset = gicrSgiOffset + gicrSgiIgroupr0 then r.igroupr0 else r.waker

/-- A byte write to a redistributor, which has a priority for 32 interrupts. -/
def Redistributor.writeByte (offset : ℕ) (v : UInt8) (r : Redistributor) : Redistributor :=
  if gicrSgiOffset + gicrSgiIpriorityrBase ≤ offset ∧
      offset < gicrSgiOffset + gicrSgiIpriorityrBase + 32 then
    let id := offset - (gicrSgiOffset + gicrSgiIpriorityrBase)
    { r with ipriorityr := Function.update r.ipriorityr id v }
  else
    r

/-- Write to the redistributor that an offset from `GICR_BASE` lies in. They follow each
other at `GICR_STRIDE`. -/
def modifyRedistributor (offset : ℕ) (write : ℕ → Redistributor → Redistributor) (g : State) :
    Exec State := do
  let n := offset / gicrStride
  let r ← redistributor n g
  return setRedistributor n (write (offset % gicrStride) r) g

/-- A word write at an offset from `GICR_BASE`. -/
def writeRedistributor (offset : ℕ) (v : BitVec 32) (g : State) : Exec State :=
  modifyRedistributor offset (fun offset r => r.write offset v) g

/-- A byte write at an offset from `GICR_BASE`. -/
def writeRedistributorByte (offset : ℕ) (v : UInt8) (g : State) : Exec State :=
  modifyRedistributor offset (fun offset r => r.writeByte offset v) g

/-- A word read at an offset from `GICR_BASE`. -/
def readRedistributor (offset : ℕ) (g : State) : Exec (BitVec 32) := do
  let r ← redistributor (offset / gicrStride) g
  return r.read (offset % gicrStride)

namespace Mmio

/-- `redistributor_sgi`, from `GICR_BASE` on. -/
def redistributorSgi (n offset : ℕ) : ℕ := n * gicrStride + gicrSgiOffset + offset

/-- `set_interrupt_priority`. -/
def setInterruptPriority (id : ℕ) (priority : UInt8) (g : State) : Exec State :=
  if id > 31 then
    .ok (writeDistributorByte (gicdIpriorityBase + id) priority g)
  else
    (List.range g.numRedistributors).foldlM
      (fun g i => writeRedistributorByte
        (i * gicrStride + gicrSgiOffset + gicrSgiIpriorityrBase + id) priority g) g

/-- `set_interrupt_group`. -/
def setInterruptGroup (id : ℕ) (g : State) : Exec State :=
  if id > 31 then
    let regOffset := id / 32 * 4
    let shift := id % 32
    let igrouprn := readDistributor (gicdIgroupr + regOffset) g
    .ok (writeDistributor (gicdIgroupr + regOffset) (igrouprn ||| (1#32 <<< shift)) g)
  else
    (List.range g.numRedistributors).foldlM
      (fun g i => do
        let igroupr0 ← readRedistributor (redistributorSgi i gicrSgiIgroupr0) g
        writeRedistributor (redistributorSgi i gicrSgiIgroupr0) (igroupr0 ||| (1#32 <<< id)) g) g

/-- `enable_interrupt`. -/
def enableInterrupt (id : ℕ) (g : State) : Exec State :=
  if id > 31 then
    let regOffset := id / 32 * 4
    let shift := id % 32
    .ok (writeDistributor (gicdIsenabler + regOffset) (1#32 <<< shift) g)
  else
    (List.range g.numRedistributors).foldlM
      (fun g i => writeRedistributor (redistributorSgi i gicrSgiIsenabler0) (1#32 <<< id) g) g

/-- `initialize_interrupt`. -/
def initializeInterrupt (id : ℕ) (priority : UInt8) (g : State) : Exec State := do
  let g ← setInterruptPriority id priority g
  let g ← setInterruptGroup id g
  enableInterrupt id g

/-- A sequence of calls of `initialize_interrupt()`. -/
def initializeInterrupts (calls : List (ℕ × UInt8)) (g : State) : Exec State :=
  calls.foldlM (fun g call => initializeInterrupt call.1 call.2 g) g

/-- An address in the second frame of the `n`th redistributor lies in that redistributor. -/
theorem redistributorSgi_div (n : ℕ) {offset : ℕ} (hoff : offset < 0x10000) :
    redistributorSgi n offset / gicrStride = n := by
  rw [redistributorSgi, gicrStride, gicrSgiOffset]
  omega

theorem redistributorSgi_mod (n : ℕ) {offset : ℕ} (hoff : offset < 0x10000) :
    redistributorSgi n offset % gicrStride = gicrSgiOffset + offset := by
  rw [redistributorSgi, gicrStride, gicrSgiOffset]
  omega

/-- A write to the second frame of the `n`th redistributor. -/
theorem modifyRedistributor_sgi (n : ℕ) {offset : ℕ} (hoff : offset < 0x10000)
    (write : ℕ → Redistributor → Redistributor) (g : State) :
    modifyRedistributor (redistributorSgi n offset) write g = (do
      let r ← redistributor n g
      return setRedistributor n (write (gicrSgiOffset + offset) r) g) := by
  rw [modifyRedistributor, redistributorSgi_div n hoff, redistributorSgi_mod n hoff]

/-- A read-modify-write of the group word of the `n`th redistributor. -/
theorem modify_igroupr0 (n : ℕ) (v : BitVec 32) (g : State) :
    (do
      let igroupr0 ← readRedistributor (redistributorSgi n gicrSgiIgroupr0) g
      writeRedistributor (redistributorSgi n gicrSgiIgroupr0) (igroupr0 ||| v) g) = (do
      let r ← redistributor n g
      return setRedistributor n { r with igroupr0 := r.igroupr0 ||| v } g) := by
  have hoff : gicrSgiIgroupr0 < 0x10000 := by norm_num [gicrSgiIgroupr0]
  simp only [readRedistributor, redistributorSgi_div n hoff, redistributorSgi_mod n hoff,
    writeRedistributor, modifyRedistributor_sgi n hoff]
  cases redistributor n g with
  | error e => rfl
  | ok r => rfl

/-- **The driver reaches the priority** of its interrupt. -/
theorem setInterruptPriority_eq {id : ℕ} (hid : id < 1024) (priority : UInt8) (g : State) :
    setInterruptPriority id priority g = DriverV3.setInterruptPriority id priority g := by
  rw [setInterruptPriority, DriverV3.setInterruptPriority]
  by_cases hshared : id > 31
  · have hrange : gicdIpriorityBase ≤ gicdIpriorityBase + id ∧
        gicdIpriorityBase + id < 0x800 := by
      norm_num [gicdIpriorityBase]
      omega
    have hindex : gicdIpriorityBase + id - gicdIpriorityBase = id := by omega
    rw [if_pos hshared, if_pos hshared, writeDistributorByte, if_pos hrange, hindex]
  · have hoff : gicrSgiIpriorityrBase + id < 0x10000 := by
      norm_num [gicrSgiIpriorityrBase]
      omega
    have hbyte : ∀ r : Redistributor,
        r.writeByte (gicrSgiOffset + (gicrSgiIpriorityrBase + id)) priority =
          { r with ipriorityr := Function.update r.ipriorityr id priority } := by
      intro r
      have hindex : gicrSgiOffset + (gicrSgiIpriorityrBase + id) -
          (gicrSgiOffset + gicrSgiIpriorityrBase) = id := by omega
      rw [Redistributor.writeByte, if_pos (by omega), hindex]
    rw [if_neg hshared, if_neg hshared, eachRedistributor]
    congr 1
    funext g i
    have haddr : i * gicrStride + gicrSgiOffset + gicrSgiIpriorityrBase + id =
        redistributorSgi i (gicrSgiIpriorityrBase + id) := Nat.add_assoc _ _ _
    rw [haddr, writeRedistributorByte, modifyRedistributor_sgi i hoff]
    simp only [hbyte]

/-- **The driver reaches the group bit** of its interrupt, in a word that it reads first. -/
theorem setInterruptGroup_eq {id : ℕ} (hid : id < 1024) (g : State) :
    setInterruptGroup id g = DriverV3.setInterruptGroup id g := by
  rw [setInterruptGroup, DriverV3.setInterruptGroup]
  by_cases hshared : id > 31
  · have hctlr : gicdIgroupr + id / 32 * 4 ≠ gicdCtlr := by
      norm_num [gicdIgroupr, gicdCtlr]
    have hrange : gicdIgroupr ≤ gicdIgroupr + id / 32 * 4 ∧
        gicdIgroupr + id / 32 * 4 < gicdIsenabler := by
      norm_num [gicdIgroupr, gicdIsenabler]
      omega
    have hindex : (gicdIgroupr + id / 32 * 4 - gicdIgroupr) / 4 = id / 32 := by omega
    simp only [if_pos hshared]
    rw [writeDistributor, if_neg hctlr, if_pos hrange, readDistributor, if_pos hrange, hindex]
  · rw [if_neg hshared, if_neg hshared, eachRedistributor]
    congr 1
    funext g i
    exact modify_igroupr0 i _ g

/-- **The driver reaches the enable bit** of its interrupt. -/
theorem enableInterrupt_eq {id : ℕ} (hid : id < 1024) (g : State) :
    enableInterrupt id g = DriverV3.enableInterrupt id g := by
  rw [enableInterrupt, DriverV3.enableInterrupt]
  by_cases hshared : id > 31
  · have hctlr : gicdIsenabler + id / 32 * 4 ≠ gicdCtlr := by
      norm_num [gicdIsenabler, gicdCtlr]
    have hgroup : ¬ (gicdIgroupr ≤ gicdIsenabler + id / 32 * 4 ∧
        gicdIsenabler + id / 32 * 4 < gicdIsenabler) := by omega
    have hrange : gicdIsenabler ≤ gicdIsenabler + id / 32 * 4 ∧
        gicdIsenabler + id / 32 * 4 < gicdIcenabler := by
      norm_num [gicdIsenabler, gicdIcenabler]
      omega
    have hindex : (gicdIsenabler + id / 32 * 4 - gicdIsenabler) / 4 = id / 32 := by omega
    simp only [if_pos hshared]
    rw [writeDistributor, if_neg hctlr, if_neg hgroup, if_pos hrange, hindex]
  · have hoff : gicrSgiIsenabler0 < 0x10000 := by norm_num [gicrSgiIsenabler0]
    rw [if_neg hshared, if_neg hshared, eachRedistributor]
    congr 1
    funext g i
    rw [writeRedistributor, modifyRedistributor_sgi i hoff]
    rfl

/-- **The driver at the addresses** of the registers does what it does to the registers. -/
theorem initializeInterrupt_eq {id : ℕ} (hid : id < 1024) (priority : UInt8) (g : State) :
    initializeInterrupt id priority g = DriverV3.initializeInterrupt id priority g := by
  rw [initializeInterrupt, DriverV3.initializeInterrupt, setInterruptPriority_eq hid]
  congr 1
  funext g
  rw [setInterruptGroup_eq hid]
  congr 1
  funext g
  exact enableInterrupt_eq hid g

end Mmio

/-! ### GICv3: sequences of calls -/

/-- An interrupt in the distributor. -/
def view (g : State) (id : ℕ) : Irq :=
  ⟨wordBit g.enabled id, wordBit g.igroupr id, g.ipriorityr id⟩

/-- A private interrupt in a redistributor. -/
def Redistributor.view (r : Redistributor) (id : ℕ) : Irq :=
  ⟨r.enabled0.getLsbD id, r.igroupr0.getLsbD id, r.ipriorityr id⟩

/-- What a sequence of calls does to the registers of the distributor and of every
redistributor. -/
structure ConfiguresOnly (calls : List (ℕ × UInt8)) (g g' : State) : Prop where
  shared : ∀ id > 31, Configures calls id (view g id) (view g' id)
  /-- the distributor has no part in private interrupts -/
  unshared : ∀ id ≤ 31, view g' id = view g id
  length : g'.redistributors.length = g.redistributors.length
  frames : ∀ (k : ℕ) r r', g.redistributors[k]? = some r → g'.redistributors[k]? = some r' →
    ∀ id ≤ 31, Configures calls id (r.view id) (r'.view id)

/-- **One call for a private interrupt** replaces its entry in a redistributor. -/
theorem Redistributor.view_configure {id : ℕ} (hid : id ≤ 31) (priority : UInt8)
    (r : Redistributor) :
    (r.configure id priority).view = Function.update r.view id (configured priority) := by
  funext i
  rw [update_configured, configure]
  simp only [Redistributor.view, getLsbD_or_bit _ (show id < 32 by omega),
    Function.update_apply]

/-- **One call for a shared interrupt** replaces its entry in the distributor. -/
theorem initializeInterrupt_shared {id : ℕ} (hid : id > 31) (priority : UInt8) (g : State) :
    ∃ g', initializeInterrupt id priority g = .ok g' ∧
      g'.redistributors = g.redistributors ∧ g'.numRedistributors = g.numRedistributors ∧
      view g' = Function.update (view g) id (configured priority) := by
  rw [initializeInterrupt, setInterruptPriority, if_pos hid, ok_bind, setInterruptGroup,
    if_pos hid, ok_bind, enableInterrupt, if_pos hid]
  refine ⟨_, rfl, rfl, rfl, ?_⟩
  funext i
  have hword : ∀ f : ℕ → BitVec 32, wordBit (Function.update f (id / 32)
      (f (id / 32) ||| (1#32 <<< (id % 32)))) i = (wordBit f i || decide (i = id)) :=
    fun f => wordBit_set (fun k => Function.update_apply f _ _ k) i
  rw [update_configured]
  simp only [view, hword, Function.update_apply]

/-- The tables after a sequence of calls: those of the redistributors for the private
interrupts, that of the distributor for the shared ones. -/
structure Updated (calls : List (ℕ × UInt8)) (g g' : State) : Prop where
  frames : ∃ F : Redistributor → Redistributor, g'.redistributors = g.redistributors.map F ∧
    ∀ r, ∀ id ≤ 31, (F r).view id = updates configured calls r.view id
  shared : ∀ id > 31, view g' id = updates configured calls (view g) id
  unshared : ∀ id ≤ 31, view g' id = view g id
  numRedistributors : g'.numRedistributors = g.numRedistributors

/-- **One call** returns and updates the tables. -/
theorem updated_initializeInterrupt (id : ℕ) (priority : UInt8) {g : State}
    (hnum : g.numRedistributors = g.redistributors.length) :
    ∃ g', initializeInterrupt id priority g = .ok g' ∧ Updated [(id, priority)] g g' := by
  by_cases hid : id ≤ 31
  · refine ⟨_, initializeInterrupt_private hid priority hnum, ⟨_, rfl, fun r i _ => ?_⟩,
      fun i hi => ?_, fun _ _ => rfl, rfl⟩
    · rw [Redistributor.view_configure hid]
      rfl
    · exact (updates_of_not_mem (by simp; omega)).symm
  · obtain ⟨g', hrun, hframes, hnum', hview⟩ :=
      initializeInterrupt_shared (not_le.mp hid) priority g
    refine ⟨g', hrun, ⟨fun r => r, by simp [hframes], fun r i hi => ?_⟩, fun i _ => ?_,
      fun i hi => ?_, hnum'⟩
    · exact (updates_of_not_mem (by simp; omega)).symm
    · rw [hview]
      rfl
    · rw [hview, Function.update_of_ne (by omega)]

/-- The tables after a call and what follows it. -/
theorem Updated.trans {call : ℕ × UInt8} {calls : List (ℕ × UInt8)} {g g' g'' : State}
    (h₁ : Updated [call] g g') (h₂ : Updated calls g' g'') : Updated (call :: calls) g g'' := by
  obtain ⟨F₁, hF₁, hview₁⟩ := h₁.frames
  obtain ⟨F₂, hF₂, hview₂⟩ := h₂.frames
  refine ⟨⟨F₂ ∘ F₁, by rw [hF₂, hF₁, List.map_map], fun r id hid => ?_⟩, fun id hid => ?_,
    fun id hid => ?_, h₂.numRedistributors.trans h₁.numRedistributors⟩
  · exact (hview₂ (F₁ r) id hid).trans (updates_congr (hview₁ r id hid))
  · exact (h₂.shared id hid).trans (updates_congr (h₁.shared id hid))
  · exact (h₂.unshared id hid).trans (h₁.unshared id hid)

/-- The tables after a sequence of calls, made at the addresses of the registers. -/
theorem Mmio.updated_initializeInterrupts {calls : List (ℕ × UInt8)}
    (hids : ∀ call ∈ calls, call.1 < 1024) {g : State}
    (hnum : g.numRedistributors = g.redistributors.length) :
    ∃ g', Mmio.initializeInterrupts calls g = .ok g' ∧ Updated calls g g' := by
  induction calls generalizing g with
  | nil =>
    exact ⟨g, rfl, ⟨fun r => r, by simp, fun _ _ _ => rfl⟩, fun _ _ => rfl, fun _ _ => rfl, rfl⟩
  | cons call calls ih =>
    rw [List.forall_mem_cons] at hids
    obtain ⟨g₁, hrun₁, h₁⟩ := updated_initializeInterrupt call.1 call.2 hnum
    have hnum₁ : g₁.numRedistributors = g₁.redistributors.length := by
      obtain ⟨F, hF, -⟩ := h₁.frames
      rw [h₁.numRedistributors, hF, List.length_map, hnum]
    obtain ⟨g₂, hrun₂, h₂⟩ := ih hids.2 hnum₁
    refine ⟨g₂, ?_, h₁.trans h₂⟩
    rw [initializeInterrupts, List.foldlM_cons, initializeInterrupt_eq hids.1, hrun₁, ok_bind]
    exact hrun₂

/-- **A sequence of calls under the GICv3 driver** returns and configures the interrupts
it names. -/
theorem Mmio.configuresOnly_initializeInterrupts {calls : List (ℕ × UInt8)}
    (hids : ∀ call ∈ calls, call.1 < 1024) {g : State}
    (hnum : g.numRedistributors = g.redistributors.length) :
    ∃ g', Mmio.initializeInterrupts calls g = .ok g' ∧ ConfiguresOnly calls g g' := by
  obtain ⟨g', hrun, hupd⟩ := Mmio.updated_initializeInterrupts hids hnum
  obtain ⟨F, hF, hview⟩ := hupd.frames
  refine ⟨g', hrun, ?_, hupd.unshared, by rw [hF, List.length_map], ?_⟩
  · intro id hid
    rw [hupd.shared id hid]
    exact configures_updates calls _ id
  · intro k r r' hr hr' id hid
    rw [hF, List.getElem?_map, hr] at hr'
    obtain rfl : F r = r' := Option.some.inj hr'
    rw [hview r id hid]
    exact configures_updates calls _ id

end DriverV3

/-! ### Both drivers -/

/-- **Interrupt configuration touches only the interrupts named**. For any sequence of calls
of `initialize_interrupt()` on one core, with identifiers up to 1019: under both drivers,
and for any number of redistributors as `initialize()` counted them, an interrupt is enabled,
and in Group 1, afterwards exactly if it was so before or is named; its priority is the last
one given, and an interrupt that is not named is as it was. The private interrupts of the
other cores of a GICv2 are as they were, and its targets change only for named shared
interrupts. -/
theorem interrupts_configured_exactly {ι : Type} [DecidableEq ι] (core : ι)
    {calls : List (ℕ × UInt8)} (hids : ∀ call ∈ calls, call.1 ≤ 1019)
    (g₂ : DriverV2.State ι) {g₃ : DriverV3.State}
    (hnum : g₃.numRedistributors = g₃.redistributors.length) :
    DriverV2.ConfiguresOnly core calls g₂ (DriverV2.initializeInterrupts core calls g₂) ∧
      ∃ g₃', DriverV3.Mmio.initializeInterrupts calls g₃ = .ok g₃' ∧
        DriverV3.ConfiguresOnly calls g₃ g₃' := by
  have hids' : ∀ call ∈ calls, call.1 < 1024 := fun call hcall => by
    have := hids call hcall
    omega
  exact ⟨DriverV2.configuresOnly_initializeInterrupts core hids' g₂,
    DriverV3.Mmio.configuresOnly_initializeInterrupts hids' hnum⟩

/-- A timer and a UART interrupt, then the timer again, on two cores. -/
theorem interrupts_configured_exactly_three :
    DriverV2.ConfiguresOnly 0 [(30, 120), (33, 40), (30, 80)] (DriverV2.atReset (Fin 2))
        (DriverV2.initializeInterrupts 0 [(30, 120), (33, 40), (30, 80)]
          (DriverV2.atReset (Fin 2))) ∧
      ∃ g₃', DriverV3.Mmio.initializeInterrupts [(30, 120), (33, 40), (30, 80)]
          { DriverV3.twoAtReset with numRedistributors := 2 } = .ok g₃' ∧
        DriverV3.ConfiguresOnly [(30, 120), (33, 40), (30, 80)]
          { DriverV3.twoAtReset with numRedistributors := 2 } g₃' :=
  interrupts_configured_exactly 0 (by simp) _ rfl

end Floss
