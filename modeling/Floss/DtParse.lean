import Floss.Clocks
import Floss.Cpu
import Floss.Regions

/-!
# What the Handlers Decode

The handlers that read registers out of a node: `Memory::dt_parse`, `UART::dt_parse` and the
GIC's `parse_dt` with the two functions that call it, and `DeviceTree::translate_address`,
which carries an address from the bus of a node up to the root. `CPU::dt_parse` is in
`Floss.Cpu`.

* Sizes of pairs and triplets are 32-bit products; the cursor of `translate_address` and
  `read_cells` is moved by 64-bit ones. Divisions are checked, so a zero divisor is a fault.
* `memoryReg`, `cpuReg`, `uartReg` and `gicReg` decode a `reg` property, `translateRanges`
  a `ranges` property; `Floss.RegBounds` says when these are safe.
-/

namespace Floss

/-! ### Addresses of a bus -/

/-- `read_cells`: big-endian 32-bit cells as a single number, which keeps its low 64 bits. -/
def readCells (m : Mem) (p ncells : ℕ) : Exec ℕ :=
  (List.range ncells).foldlM (fun v i => do
    return v <<< 32 % 2 ^ 64 ||| (← be32 m (p + i * 4))) 0

/-- The loop of `find_prop`, from slot `i` on; `left` properties remain. -/
def NodeFrame.findPropFrom (f : NodeFrame) (m : Mem) (name : List UInt8) :
    (left i : ℕ) → Exec (Option PropFrame)
  | 0, _ => .ok none
  | left + 1, i => do
      let prop ← f.propAt i
      if (← strcmp m prop.name name) = 0 then
        return some prop
      else
        f.findPropFrom m name left (i + 1)

/-- `find_prop`. -/
def NodeFrame.findProp (f : NodeFrame) (m : Mem) (name : List UInt8) :
    Exec (Option PropFrame) :=
  f.findPropFrom m name f.nprops 0

/-- The triplet loop of `translate_address`, with the cursor at `p`; the first triplet that
has the address translates it. -/
def translateTriplets (m : Mem) (childCells parentCells sizeCells : ℕ) :
    (left p address : ℕ) → Exec ℕ
  | 0, _, address => .ok address
  | left + 1, p, address => do
      let childBase ← readCells m p childCells
      let p := p + childCells * 4
      let parentBase ← readCells m p parentCells
      let p := p + parentCells * 4
      let length ← readCells m p sizeCells
      let p := p + sizeCells * 4
      if childBase ≤ address ∧ address < (childBase + length) % 2 ^ 64 then
        return (parentBase + (address - childBase)) % 2 ^ 64
      else
        translateTriplets m childCells parentCells sizeCells left p address

/-- The translation of a bus by its `ranges` property. -/
def translateRanges (m : Mem) (bus : NodeFrame) (ranges : Option PropFrame) (address : ℕ) :
    Exec ℕ :=
  match ranges with
  | none => .ok address
  | some ranges =>
      if ranges.len = 0 then
        .ok address
      else do
        let childCells := bus.ownCells.address
        let parentCells := bus.parentCells.address
        let sizeCells := bus.ownCells.size
        let tripletCells := (childCells + parentCells + sizeCells) % 2 ^ 32
        let numTriplets ← udiv ranges.len (tripletCells * 4 % 2 ^ 32)
        translateTriplets m childCells parentCells sizeCells numTriplets ranges.value address

/-- The walk of `translate_address` from a bus to the root; `fuel` bounds the number of
buses. -/
def translateFrom (m : Mem) (frames : ℕ → NodeFrame) :
    (fuel : ℕ) → (bus : Option ℕ) → (address : ℕ) → Exec ℕ
  | _, none, address => .ok address
  | 0, some _, _ => .error .fuel
  | fuel + 1, some bus, address => do
      let ranges ← (frames bus).findProp m (cstr "ranges")
      let address ← translateRanges m (frames bus) ranges address
      translateFrom m frames fuel (frames bus).parent address

/-- `DeviceTree::translate_address`. -/
def translateAddress (m : Mem) (frames : ℕ → NodeFrame) (fuel node address : ℕ) : Exec ℕ :=
  translateFrom m frames fuel (frames node).parent address

/-! ### Memory -/

/-- The `reg` property of a memory node, which must be a single pair. -/
def memoryReg (m : Mem) (cells : NodeCells) (prop : PropFrame) : Exec RegPair := do
  let rpSizeBytes := cells.byteSize
  let numRegPairs ← udiv prop.len rpSizeBytes
  kassert ((← umod prop.len rpSizeBytes) = 0) "Invalid reg length (%d, rp size %d)\n"
  kassert (numRegPairs = 1) "Only expecting one reg pair for the memory node\n"
  readRegPair m cells prop.value

/-- One property of a memory node. -/
def memoryProp (m : Mem) (f : NodeFrame) (ram : List Region) (i : ℕ) : Exec (List Region) := do
  let prop ← f.propAt i
  if (← strcmp m prop.name (cstr "reg")) = 0 then
    let rp ← memoryReg m f.parentCells prop
    addRegion ram rp.address rp.length
  else
    return ram

/-- `Memory::dt_parse`. -/
def memoryDtParse (m : Mem) (f : NodeFrame) (ram : List Region) : Exec (List Region) :=
  (List.range f.nprops).foldlM (memoryProp m f) ram

/-! ### UART -/

/-- `Interrupts::Capacity`. -/
def interruptsCapacity : ℕ := 5

/-- `DeviceTree::Interrupts`: `num` entries are in use. -/
structure Interrupts where
  num : ℕ := 0
  intids : ℕ → ℕ := fun _ => 0

def Interrupts.registerIntid (s : Interrupts) (intid : ℕ) : Exec Interrupts := do
  kassert (s.num < interruptsCapacity) "precond\n"
  return { num := s.num + 1, intids := Function.update s.intids s.num intid }

/-- The interrupt identifier of one entry of an `interrupts` property. -/
def readInterruptId (m : Mem) (prop : PropFrame) (index interruptCells : ℕ) : Exec ℕ := do
  let interruptValue := prop.value + index * (interruptCells * 4) % 2 ^ 64
  let type ← be32 m interruptValue
  let number ← be32 m (interruptValue + 4)
  return (if type = 0 then 32 + number else 16 + number) % 2 ^ 32

/-- What `UART::dt_parse` sets: the variables of the driver, and the device regions. -/
structure UartNode where
  uart : ℕ := nullptr
  interrupts : Interrupts := {}
  clockFrequency : ℕ := 0
  devices : List Region := []

section Uart

variable (m : Mem) (table : PhandleTable) (frames : ℕ → NodeFrame) (node : ℕ)

/-- The first loop: whether a `status` property says other than `okay`, from slot `i` on. -/
def uartDisabled (f : NodeFrame) : (left i : ℕ) → Exec Bool
  | 0, _ => .ok false
  | left + 1, i => do
      let prop ← f.propAt i
      if (← strcmp m prop.name (cstr "status")) = 0 then
        if (← strcmp m prop.value (cstr "okay")) ≠ 0 then
          return true
        else
          uartDisabled f left (i + 1)
      else
        uartDisabled f left (i + 1)

/-- The `reg` property of a UART node. All pairs are read; `first` is what is done with the
first one. -/
def uartReg {σ : Type} (cells : NodeCells) (prop : PropFrame) (first : σ → RegPair → Exec σ)
    (s : σ) : Exec σ := do
  let rpSizeBytes := cells.byteSize
  let numRegPairs ← udiv prop.len rpSizeBytes
  kassert ((← umod prop.len rpSizeBytes) = 0) "Invalid reg length (%d, rp size %d)\n"
  (List.range numRegPairs).foldlM (fun s j => do
    let rp ← readRegPair m cells (prop.value + j * rpSizeBytes)
    if j = 0 then first s rp else return s) s

/-- What the UART driver does with its first pair: record it as device memory. -/
def uartFirst (s : UartNode) (rp : RegPair) : Exec UartNode := do
  let phys ← translateAddress m frames maxNodeDepth node rp.address
  let devices ← addRegion s.devices phys rp.length
  return { s with uart := phys, devices := devices }

/-- The `interrupts` property of a UART node. The product of the divisor is a 64-bit one. -/
def uartInterrupts (f : NodeFrame) (prop : PropFrame) : Exec Interrupts := do
  let interruptCells ← f.ownCells.lookupInterruptCells table
  let numInterrupts ← udiv prop.len (interruptCells * 4)
  kassert (numInterrupts ≤ interruptsCapacity) "precond\n"
  (List.range numInterrupts).foldlM (fun s j => do
    s.registerIntid (← readInterruptId m prop j interruptCells)) {}

/-- One property of a UART node. `fuel` bounds the clocks that are looked up. -/
def uartProp (fuel : ℕ) (s : UartNode) (i : ℕ) : Exec UartNode := do
  let f := frames node
  let prop ← f.propAt i
  if (← strcmp m prop.name (cstr "reg")) = 0 then
    uartReg m f.parentCells prop (uartFirst m frames node) s
  else if (← strcmp m prop.name (cstr "interrupts")) = 0 then
    return { s with interrupts := ← uartInterrupts m table f prop }
  else if (← strcmp m prop.name (cstr "clocks")) = 0 then
    let clockPhandle ← be32 m prop.value
    return { s with clockFrequency := ← table.lookupClockFrequency fuel clockPhandle }
  else
    return s

/-- `UART::dt_parse`. -/
def uartDtParse (fuel : ℕ) (s : UartNode) : Exec UartNode := do
  if ← uartDisabled m (frames node) (frames node).nprops 0 then
    return s
  else
    (List.range (frames node).nprops).foldlM (uartProp m table frames node fuel) s

end Uart

/-! ### GIC -/

/-- `GICRegs::NumRegPairs`. -/
def gicNumRegPairs : ℕ := 2

/-- The `reg` property of a GIC node: its first two pairs. -/
def gicReg (m : Mem) (cells : NodeCells) (prop : PropFrame) (regs : ℕ → RegPair) :
    Exec (ℕ → RegPair) := do
  let rpSizeBytes := cells.byteSize
  let numRegPairs ← udiv prop.len rpSizeBytes
  kassert (numRegPairs ≥ gicNumRegPairs) "precond\n"
  kassert ((← umod prop.len rpSizeBytes) = 0) "Invalid reg length (%d, rp size %d)\n"
  (List.range gicNumRegPairs).foldlM (fun regs j => do
    let rp ← readRegPair m cells (prop.value + j * rpSizeBytes)
    return Function.update regs j rp) regs

/-- One property of a GIC node. -/
def gicProp (m : Mem) (f : NodeFrame) (regs : ℕ → RegPair) (i : ℕ) : Exec (ℕ → RegPair) := do
  let prop ← f.propAt i
  if (← strcmp m prop.name (cstr "reg")) = 0 then
    gicReg m f.parentCells prop regs
  else
    return regs

/-- `parse_dt` of the GIC. Pairs that are not read keep what `regs` held before. -/
def gicParseDt (m : Mem) (f : NodeFrame) (regs : ℕ → RegPair) : Exec (ℕ → RegPair) :=
  (List.range f.nprops).foldlM (gicProp m f) regs

inductive GicVersion
  | v2
  | v3
  deriving DecidableEq, Repr

/-- What the GIC's handlers set: the driver in use, its distributor, its CPU interface or
redistributors, and the device regions. -/
structure GicNode where
  driver : Option GicVersion := none
  gicdBase : ℕ := 0
  secondBase : ℕ := 0
  devices : List Region := []

/-- `GIC::dt_parse_v2` and `GIC::dt_parse_v3`, which differ in the driver they set. -/
def gicDtParse (version : GicVersion) (m : Mem) (frames : ℕ → NodeFrame) (node : ℕ)
    (garbage : ℕ → RegPair) (s : GicNode) : Exec GicNode := do
  kassert (s.driver = none) "precond\n"
  let regs ← gicParseDt m (frames node) garbage
  let gicd ← translateAddress m frames maxNodeDepth node (regs 0).address
  let second ← translateAddress m frames maxNodeDepth node (regs 1).address
  let devices ← addRegion s.devices gicd (regs 0).length
  let devices ← addRegion devices second (regs 1).length
  return ⟨some version, gicd, second, devices⟩

end Floss
