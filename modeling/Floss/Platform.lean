import Floss.DtParse
import Floss.Handlers
import Floss.RegBounds

/-!
# The Platform

What the kernel knows about the machine after `DeviceTree::parse_frames`: RAM and device
regions, cores, the way to call PSCI, the timer's interrupts, the UART and the interrupt
controller. All of it comes out of the handlers that the second pass calls, each of which
reads the bytes of a node through its frame.

* `Platform`, `Platform.onNode`: the variables the handlers set, and the function table
  `_node_handlers` with every handler in its place. PSCI and the timer are modelled here;
* `memoryDtParse_eq_ok`: `Memory::dt_parse` on the frame of a node adds the regions of the
  node. The decoding of `reg` is compared with the value as a number (`beNat`);
* `cpuInfo_core`, `psciDtParse_psci`: the same for a core and for PSCI.
-/

namespace Floss

/-! ### PSCI -/

inductive PsciMethod
  | hypervisor
  | secureMonitor
  | unknown
  deriving DecidableEq, Repr

/-- `PSCI_CPU_ON` and `PSCI_METHOD`. -/
structure Psci where
  cpuOn : ℕ := 0xC4000003
  method : PsciMethod := .secureMonitor
  deriving DecidableEq, Repr

def psciMethodFromStr (m : Mem) (methodStr : ℕ) : Exec PsciMethod := do
  if (← strcmp m methodStr (cstr "hvc")) = 0 then
    return .hypervisor
  else if (← strcmp m methodStr (cstr "smc")) = 0 then
    return .secureMonitor
  else
    .error (.panic "Unknown PSCI method '%s'\n")

/-- `Parser::read_prop`. -/
def readProp (m : Mem) (prop : PropFrame) : Exec ℕ :=
  if prop.len = 4 then
    be32 m prop.value
  else if prop.len = 8 then
    be64 m prop.value
  else
    .error (.panic "Bad prop length for Parser::read_prop")

/-- One property of a PSCI node. -/
def psciProp (m : Mem) (f : NodeFrame) (s : Psci) (i : ℕ) : Exec Psci := do
  let prop ← f.propAt i
  if (← strcmp m prop.name (cstr "cpu_on")) = 0 then
    return { s with cpuOn := ← readProp m prop }
  else if (← strcmp m prop.name (cstr "method")) = 0 then
    return { s with method := ← psciMethodFromStr m prop.value }
  else
    return s

/-- `PSCI::dt_parse`. -/
def psciDtParse (m : Mem) (f : NodeFrame) (s : Psci) : Exec Psci :=
  (List.range f.nprops).foldlM (psciProp m f) s

/-! ### Timer -/

def Interrupts.reset (s : Interrupts) : Interrupts := { s with num := 0 }

/-- One property of a timer node. -/
def timerProp (m : Mem) (table : PhandleTable) (f : NodeFrame) (s : Interrupts) (i : ℕ) :
    Exec Interrupts := do
  let prop ← f.propAt i
  if (← strcmp m prop.name (cstr "interrupts")) = 0 then
    let interruptCells ← f.ownCells.lookupInterruptCells table
    let numInterrupts ← udiv prop.len (interruptCells * 4)
    kassert (numInterrupts ≤ interruptsCapacity) "precond\n"
    (List.range numInterrupts).foldlM (fun s j => do
      s.registerIntid (← readInterruptId m prop j interruptCells)) s.reset
  else
    return s

/-- `Timer::dt_parse`. -/
def timerDtParse (m : Mem) (table : PhandleTable) (f : NodeFrame) (s : Interrupts) :
    Exec Interrupts :=
  (List.range f.nprops).foldlM (timerProp m table f) s

/-! ### All handlers -/

/-- The variables that the handlers set. The device regions are one list, to which the UART
and the interrupt controller add. -/
structure Platform where
  ram : List Region := []
  devices : List Region := []
  cpus : CpuTable := {}
  psci : Psci := {}
  timer : Interrupts := {}
  uart : UartNode := {}
  gic : GicNode := {}

/-- The function of a table entry. `fuel` bounds the clocks that are looked up, and `garbage`
is what the interrupt controller's pairs hold before they are read. -/
def Platform.onNode (m : Mem) (fuel : ℕ) (garbage : ℕ → RegPair) (table : PhandleTable)
    (s : Platform) (c : HandlerCall) : Exec Platform :=
  match c.handler.onNode with
  | .psciDtParse => do
      return { s with psci := ← psciDtParse m c.frame s.psci }
  | .uartDtParse => do
      let uart ← uartDtParse m table c.frames c.node fuel { s.uart with devices := s.devices }
      return { s with uart := uart, devices := uart.devices }
  | .memoryDtParse => do
      return { s with ram := ← memoryDtParse m c.frame s.ram }
  | .cpuDtParse => do
      return { s with cpus := ← s.cpus.dtParse m c.frame }
  | .timerDtParse => do
      return { s with timer := ← timerDtParse m table c.frame s.timer }
  | .gicDtParseV2 => do
      let gic ← gicDtParse .v2 m c.frames c.node garbage { s.gic with devices := s.devices }
      return { s with gic := gic, devices := gic.devices }
  | .gicDtParseV3 => do
      let gic ← gicDtParse .v3 m c.frames c.node garbage { s.gic with devices := s.devices }
      return { s with gic := gic, devices := gic.devices }

/-! ### Values as numbers -/

/-- The number that big-endian bytes stand for. -/
def beNat (bs : List UInt8) : ℕ := bs.foldl (fun v b => v * 2 ^ 8 + b.toNat) 0

/-- The number in `n` cells of a value, from byte `off` on. The kernel reads fields of one or
two cells only, any other counts as zero. -/
def Property.field (p : Property) (n off : ℕ) : ℕ :=
  if n = 1 ∨ n = 2 then beNat ((p.value.drop off).take (4 * n)) else 0

/-- The first pair of a `reg` value with so many address and size cells. -/
def Property.pair (p : Property) (address size : ℕ) : RegPair :=
  ⟨p.field address 0, p.field size (4 * address)⟩

section Decode

variable {m : Mem} {a : ℕ} {pf : PropFrame} {p : Property}

theorem be32_beNat {bs : List UInt8} (h : Holds m a bs) (hlen : 4 ≤ bs.length) :
    be32 m a = .ok (beNat (bs.take 4)) := by
  rcases bs with _ | ⟨b0, _ | ⟨b1, _ | ⟨b2, _ | ⟨b3, rest⟩⟩⟩⟩
  · simp at hlen
  · simp at hlen
  · simp at hlen
  · simp at hlen
  · obtain ⟨h0, h1, h2, h3, -⟩ := h
    refine be32_eq_ok.mpr ⟨b0, b1, b2, b3, h0, h1, h2, h3, ?_⟩
    simp only [beNat, List.take_succ_cons, List.take_zero, List.foldl_cons, List.foldl_nil]
    omega

theorem beNat_append (xs ys : List UInt8) :
    beNat (xs ++ ys) = beNat xs * 2 ^ (8 * ys.length) + beNat ys := by
  induction ys using List.reverseRecOn with
  | nil => simp [beNat]
  | append_singleton ys y ih =>
      have hsnoc : ∀ zs : List UInt8, beNat (zs ++ [y]) = beNat zs * 2 ^ 8 + y.toNat :=
        fun zs => by simp [beNat]
      rw [← List.append_assoc, hsnoc, hsnoc, ih, List.length_append, List.length_singleton,
        Nat.mul_add, Nat.mul_one, Nat.pow_add, Nat.add_mul, Nat.mul_assoc]
      omega

theorem be64_beNat {bs : List UInt8} (h : Holds m a bs) (hlen : 8 ≤ bs.length) :
    be64 m a = .ok (beNat (bs.take 8)) := by
  have hhi := be32_beNat h (by omega)
  have hlo := be32_beNat (holds_drop h (by omega : 4 ≤ bs.length)) (by simp; omega)
  have hlow := be32_lt hlo
  have hsplit : bs.take 8 = bs.take 4 ++ (bs.drop 4).take 4 := by
    rw [show 8 = 4 + 4 from rfl, List.take_add]
  have hlen4 : ((bs.drop 4).take 4).length = 4 := by simp; omega
  rw [be64, hhi, ok_bind, hlo, ok_bind, hsplit, beNat_append, hlen4, Nat.shiftLeft_eq,
    Nat.mul_comm, Nat.two_pow_add_eq_or_of_lt hlow, Nat.mul_comm]
  rfl

/-- A field within the value is the number there. -/
theorem readField_eq (h : Holds m a p.value) {n off : ℕ} (hfits : FieldFits n off p.value.length) :
    readField m n (a + off) = .ok (p.field n off) := by
  rw [readField, Property.field]
  by_cases h1 : n = 1
  · have hle := hfits (.inl h1)
    have hread := be32_beNat (holds_drop h (by omega : off ≤ _)) (by simp; omega)
    rw [if_pos h1, if_pos (.inl h1), hread, h1]
  by_cases h2 : n = 2
  · have hle := hfits (.inr h2)
    have hread := be64_beNat (holds_drop h (by omega : off ≤ _)) (by simp; omega)
    rw [if_neg h1, if_pos h2, if_pos (.inr h2), hread, h2]
  · rw [if_neg h1, if_neg h2, if_neg (by omega)]

/-- The pair of a value that is as long as the pair. -/
theorem readRegPair_pair (h : Holds m a p.value) {cells : NodeCells}
    (hfit : cells.address + cells.size < 2 ^ 30)
    (hlen : p.value.length = 4 * (cells.address + cells.size)) :
    readRegPair m cells a = .ok (p.pair cells.address cells.size) := by
  have haddress : readField m cells.address a = .ok (p.field cells.address 0) := by
    have hread := @readField_eq m a p h cells.address 0 fun _ => by omega
    rwa [Nat.add_zero] at hread
  have hsize := @readField_eq m a p h cells.size (4 * cells.address) fun _ => by omega
  have hoff : cells.address * 4 % 2 ^ 32 = 4 * cells.address := by omega
  rw [readRegPair_eq, haddress, ok_bind, hoff, hsize]
  rfl

theorem udiv_eq_ok {n d q : ℕ} : udiv n d = .ok q ↔ d ≠ 0 ∧ n / d = q := by
  by_cases hd : d = 0 <;> simp [udiv, hd]

theorem umod_eq_ok {n d r : ℕ} : umod n d = .ok r ↔ d ≠ 0 ∧ n % d = r := by
  by_cases hd : d = 0 <;> simp [umod, hd]

/-- The checks for a single pair: the value is as long as a pair. -/
theorem single_pair_iff {len size : ℕ} :
    (size ≠ 0 ∧ len % size = 0 ∧ len / size = 1) ↔ 0 < len ∧ len = size := by
  constructor
  · rintro ⟨hne, hmod, hone⟩
    have hdiv := Nat.div_add_mod len size
    rw [hmod, hone] at hdiv
    omega
  · rintro ⟨hpos, rfl⟩
    exact ⟨by omega, Nat.mod_self len, Nat.div_self hpos⟩

section Single

variable {cells : NodeCells}

theorem byteSize_of_fits (hfit : cells.address + cells.size < 2 ^ 30) :
    cells.byteSize = 4 * (cells.address + cells.size) := by
  rw [NodeCells.byteSize_eq]
  omega

/-- The single pair of a memory node. -/
theorem memoryReg_eq_ok (hp : PropIs m pf p) (hfit : cells.address + cells.size < 2 ^ 30)
    {rp : RegPair} : memoryReg m cells pf = .ok rp ↔
      (0 < p.value.length ∧ p.value.length = 4 * (cells.address + cells.size)) ∧
      p.pair cells.address cells.size = rp := by
  rw [← single_pair_iff]
  simp only [memoryReg, bind_eq_ok, udiv_eq_ok, umod_eq_ok, kassert_eq_ok, hp.len,
    byteSize_of_fits hfit]
  constructor
  · rintro ⟨_, ⟨hne, rfl⟩, _, ⟨-, rfl⟩, _, hmod, _, hone, hread⟩
    have hlen := single_pair_iff.mp ⟨hne, hmod, hone⟩
    rw [readRegPair_pair hp.value hfit hlen.2] at hread
    exact ⟨⟨hne, hmod, hone⟩, Except.ok.inj hread⟩
  · rintro ⟨⟨hne, hmod, hone⟩, rfl⟩
    have hlen := single_pair_iff.mp ⟨hne, hmod, hone⟩
    exact ⟨_, ⟨hne, rfl⟩, _, ⟨hne, rfl⟩, (), hmod, (), hone,
      readRegPair_pair hp.value hfit hlen.2⟩

/-- The single pair of a cpu node, of which the address is kept. -/
theorem cpuReg_eq_ok (hp : PropIs m pf p) (hfit : cells.address + cells.size < 2 ^ 30)
    {reg : ℕ} : cpuReg m cells pf = .ok reg ↔
      (0 < p.value.length ∧ p.value.length = 4 * (cells.address + cells.size)) ∧
      p.field cells.address 0 = reg := by
  rw [← single_pair_iff]
  simp only [cpuReg, bind_eq_ok, udiv_eq_ok, umod_eq_ok, kassert_eq_ok, hp.len, pure_eq_ok,
    byteSize_of_fits hfit, Except.ok.injEq]
  constructor
  · rintro ⟨_, ⟨hne, rfl⟩, _, hmod, _, ⟨-, rfl⟩, _, hone, rp, hread, rfl⟩
    have hlen := single_pair_iff.mp ⟨hne, hmod, hone⟩
    rw [readRegPair_pair hp.value hfit hlen.2] at hread
    obtain rfl := Except.ok.inj hread
    exact ⟨⟨hne, hmod, hone⟩, rfl⟩
  · rintro ⟨⟨hne, hmod, hone⟩, rfl⟩
    have hlen := single_pair_iff.mp ⟨hne, hmod, hone⟩
    exact ⟨_, ⟨hne, rfl⟩, (), hmod, _, ⟨hne, rfl⟩, (), hone, _,
      readRegPair_pair hp.value hfit hlen.2, rfl⟩

end Single

end Decode

/-! ### A handler reads the properties of its node -/

section Frame

variable {σ : Type} {m : Mem} {n : Node} {f : NodeFrame}

/-- A counted loop over a list that ends with `r` exactly when the loop over its elements
does. The induction takes elements from the end. -/
theorem foldlM_range_ok_iff {α : Type} {g : σ → ℕ → Exec σ} {h : σ → α → Exec σ} (l : List α)
    (hstep : ∀ i a s r, l[i]? = some a → (g s i = .ok r ↔ h s a = .ok r)) (s r : σ) :
    (List.range l.length).foldlM g s = .ok r ↔ l.foldlM h s = .ok r := by
  induction l using List.reverseRecOn generalizing r with
  | nil => rfl
  | append_singleton l a ih =>
      have hlast := fun t => hstep l.length a t r (by simp)
      have hinit : ∀ i b s r, l[i]? = some b → (g s i = .ok r ↔ h s b = .ok r) := by
        intro i b s r hi
        refine hstep i b s r ?_
        rw [List.getElem?_append_left (List.getElem?_eq_some_iff.mp hi).1, hi]
      rw [List.length_append, List.length_singleton, List.range_succ, foldlM_append_eq_ok,
        foldlM_append_eq_ok]
      simp only [ih hinit, List.foldlM_cons, List.foldlM_nil, pure_eq_ok, bind_ok, hlast]

/-- The loop of a handler over the properties in its frame is a loop over those of the
node. -/
theorem foldlM_frame_ok_iff (hf : FrameOf m n f) (hroom : n.kept.length < maxPropsPerNode)
    {g : σ → ℕ → Exec σ} {h : σ → Property → Exec σ}
    (hstep : ∀ i p s r, p ∈ n.kept → f.propAt i = .ok (f.props i) → PropIs m (f.props i) p →
      (g s i = .ok r ↔ h s p = .ok r)) (s r : σ) :
    (List.range f.nprops).foldlM g s = .ok r ↔ n.kept.foldlM h s = .ok r := by
  rw [hf.nprops]
  refine foldlM_range_ok_iff n.kept (fun i p s r hi => ?_) s r
  have hlt := (List.getElem?_eq_some_iff.mp hi).1
  have hat : f.propAt i = .ok (f.props i) := by
    rw [NodeFrame.propAt, inBounds_of (by omega)]
    rfl
  exact hstep i p s r (List.mem_of_getElem? hi) hat (hf.props i p hi)

end Frame

/-! ### Memory -/

def regName : List UInt8 := cstr "reg"

/-- The regions that the `reg` properties of a node name, with the cell counts of its
parent. -/
def Node.regions (address size : ℕ) (n : Node) : List Region :=
  (n.kept.filter (·.name = regName)).map fun p =>
    ⟨(p.pair address size).address, (p.pair address size).length⟩

/-- Every `reg` property of the node is one pair. -/
def Node.RegsFit (address size : ℕ) (n : Node) : Prop :=
  ∀ p ∈ n.kept, p.name = regName →
    0 < p.value.length ∧ p.value.length = 4 * (address + size)

/-- Add regions one after the other. -/
def addRegions (rs added : List Region) : Exec (List Region) :=
  added.foldlM (fun rs r => addRegion rs r.start r.size) rs

theorem addRegions_append_eq_ok {rs xs ys rs' : List Region} :
    addRegions rs (xs ++ ys) = .ok rs' ↔
      ∃ t, addRegions rs xs = .ok t ∧ addRegions t ys = .ok rs' := foldlM_append_eq_ok

/-- What one property of a memory node amounts to. -/
def addMemory (address size : ℕ) (ram : List Region) (p : Property) : Exec (List Region) :=
  if p.name = regName then do
    kassert (0 < p.value.length ∧ p.value.length = 4 * (address + size)) "reg"
    addRegion ram (p.pair address size).address (p.pair address size).length
  else
    .ok ram

theorem foldlM_addMemory_eq_ok {address size : ℕ} (ps : List Property) {ram ram' : List Region} :
    ps.foldlM (addMemory address size) ram = .ok ram' ↔
      (∀ p ∈ ps, p.name = regName →
        0 < p.value.length ∧ p.value.length = 4 * (address + size)) ∧
      addRegions ram ((ps.filter (·.name = regName)).map fun p =>
        ⟨(p.pair address size).address, (p.pair address size).length⟩) = .ok ram' := by
  induction ps generalizing ram with
  | nil => simp [addRegions]
  | cons p ps ih =>
      rw [List.foldlM_cons, bind_eq_ok]
      by_cases hname : p.name = regName
      · rw [List.filter_cons_of_pos (by simp [hname]), List.map_cons, addRegions, List.foldlM_cons,
          bind_eq_ok]
        simp only [addMemory, hname, if_true, bind_eq_ok, kassert_eq_ok, List.mem_cons,
          forall_eq_or_imp, true_imp_iff]
        constructor
        · rintro ⟨t, ⟨_, hlen, hadd⟩, hrest⟩
          obtain ⟨hall, hrun⟩ := ih.mp hrest
          exact ⟨⟨hlen, hall⟩, t, hadd, hrun⟩
        · rintro ⟨⟨hlen, hall⟩, t, hadd, hrun⟩
          exact ⟨t, ⟨(), hlen, hadd⟩, ih.mpr ⟨hall, hrun⟩⟩
      · rw [List.filter_cons_of_neg (by simp [hname])]
        simp only [addMemory, hname, if_false, Except.ok.injEq, List.mem_cons, forall_eq_or_imp,
          false_imp_iff, true_and, exists_eq_left', ih]

/-- **`Memory::dt_parse`** on the frame of a node completes exactly when each `reg` property is
one pair and the regions they name can be added. -/
theorem memoryDtParse_eq_ok {m : Mem} {n : Node} {f : NodeFrame} (hf : FrameOf m n f)
    (hroom : n.kept.length < maxPropsPerNode)
    (hfit : f.parentCells.address + f.parentCells.size < 2 ^ 30) {ram ram' : List Region} :
    memoryDtParse m f ram = .ok ram' ↔ n.RegsFit f.parentCells.address f.parentCells.size ∧
      addRegions ram (n.regions f.parentCells.address f.parentCells.size) = .ok ram' := by
  rw [memoryDtParse, foldlM_frame_ok_iff hf hroom ?_, foldlM_addMemory_eq_ok]
  · rfl
  · intro i p s r _ hat hp
    rw [memoryProp, hat, ok_bind, strcmp_branch hp.name (by decide), addMemory, regName]
    by_cases hname : p.name = cstr "reg"
    · simp only [hname, if_true, bind_eq_ok, memoryReg_eq_ok hp hfit, kassert_eq_ok]
      constructor
      · rintro ⟨rp, ⟨hlen, rfl⟩, hadd⟩
        exact ⟨(), hlen, hadd⟩
      · rintro ⟨_, hlen, hadd⟩
        exact ⟨_, ⟨hlen, rfl⟩, hadd⟩
    · simp [hname]

/-! ### Cores -/

/-- The string at the start of a value. -/
def Property.text (p : Property) : List UInt8 := p.value.takeWhile (· ≠ 0)

def Property.enableMethod (p : Property) : EnableMethod :=
  if p.text = cstr "psci" then .psci
  else if p.text = cstr "spin-table" then .spinTable
  else .unknown

def enableMethodName : List UInt8 := cstr "enable-method"

def releaseAddrName : List UInt8 := cstr "cpu-release-addr"

/-- **The core that a cpu node describes**, with the address cells of its parent. -/
def Node.core (address : ℕ) (n : Node) : CpuInformation where
  reg := ((n.prop? regName).map fun p => p.field address 0).getD 0
  enableMethod := ((n.prop? enableMethodName).map Property.enableMethod).getD .unknown
  releaseAddress := ((n.prop? releaseAddrName).map fun p => p.field 2 0).getD 0

/-- The properties of a cpu node have values of their types: the enable method is a string, and
the release address has two cells. -/
def Node.CoreTyped (n : Node) : Prop :=
  ∀ p ∈ n.kept, (p.name = enableMethodName → 0 ∈ p.value) ∧
    (p.name = releaseAddrName → 8 ≤ p.value.length)

instance (n : Node) : Decidable n.CoreTyped :=
  inferInstanceAs (Decidable (∀ p ∈ n.kept, (p.name = enableMethodName → 0 ∈ p.value) ∧
    (p.name = releaseAddrName → 8 ≤ p.value.length)))

theorem strAt_text {m : Mem} {a : ℕ} {p : Property} (h : Holds m a p.value) (h0 : 0 ∈ p.value) :
    StrAt m a p.text := by
  rw [Property.text]
  generalize p.value = bs at h h0
  induction bs generalizing a with
  | nil => simp at h0
  | cons b bs ih =>
      obtain ⟨hb, h⟩ := h
      by_cases hz : b = 0
      · rw [List.takeWhile_cons_of_neg (by simp [hz]), strAt_nil, hb, hz]
      · rw [List.takeWhile_cons_of_pos (by simp [hz]), strAt_cons]
        exact ⟨hb, hz, ih h (by simpa [Ne.symm hz] using h0)⟩

theorem enableMethodOf_eq_ok {m : Mem} {a : ℕ} {p : Property} (h : Holds m a p.value)
    (h0 : 0 ∈ p.value) {e : EnableMethod} :
    enableMethodOf m a = .ok e ↔ p.enableMethod ≠ .unknown ∧ p.enableMethod = e := by
  have htext := strAt_text h h0
  rw [enableMethodOf, strcmp_branch htext (by decide), strcmp_branch htext (by decide),
    Property.enableMethod]
  split
  · simp
  · split <;> simp

/-- What one property of a cpu node amounts to. -/
def addCore (address size : ℕ) (info : CpuInformation) (p : Property) : Exec CpuInformation :=
  if p.name = enableMethodName then do
    kassert (p.enableMethod ≠ .unknown) "enable-method"
    return { info with enableMethod := p.enableMethod }
  else if p.name = releaseAddrName then
    .ok { info with releaseAddress := p.field 2 0 }
  else if p.name = regName then do
    kassert (0 < p.value.length ∧ p.value.length = 4 * (address + size)) "reg"
    return { info with reg := p.field address 0 }
  else
    .ok info

/-- **The last property of a name counts**: if a step takes over the value of a property with
this name, and leaves what is there for any other, the whole list leaves the last such value.
The induction takes properties from the end. -/
theorem foldlM_last_named {σ β : Type} {step : σ → Property → Exec σ} (get : σ → β)
    (name : List UInt8) (val : Property → β)
    (hstep : ∀ {s p s'}, step s p = .ok s' → get s' = if p.name = name then val p else get s)
    {ps : List Property} {s s' : σ} (h : ps.foldlM step s = .ok s') :
    get s' = ((ps.reverse.find? (·.name == name)).map val).getD (get s) := by
  induction ps using List.reverseRecOn generalizing s' with
  | nil =>
      obtain rfl : s = s' := by simpa using h
      rfl
  | append_singleton ps p ih =>
      rw [foldlM_append_eq_ok] at h
      obtain ⟨t, ht, h⟩ := h
      simp only [List.foldlM_cons, List.foldlM_nil, pure_eq_ok, bind_ok] at h
      rw [hstep h, List.reverse_append, List.reverse_singleton, List.singleton_append]
      by_cases hname : p.name = name
      · simp [hname]
      · rw [if_neg hname, ih ht, List.find?_cons_of_neg (by simpa using hname)]

/-- What one property sets. -/
theorem addCore_sets {address size : ℕ} {info info' : CpuInformation} {p : Property}
    (h : addCore address size info p = .ok info') :
    info' = ⟨if p.name = regName then p.field address 0 else info.reg,
      if p.name = enableMethodName then p.enableMethod else info.enableMethod,
      if p.name = releaseAddrName then p.field 2 0 else info.releaseAddress⟩ := by
  simp only [addCore, pure_eq_ok] at h
  split_ifs at h with hm hr hreg
  · obtain ⟨_, -, h⟩ := bind_eq_ok.mp h
    obtain rfl := Except.ok.inj h
    rw [hm, if_neg (by decide), if_pos rfl, if_neg (by decide)]
  · obtain rfl := Except.ok.inj h
    rw [hr, if_neg (by decide), if_neg (by decide), if_pos rfl]
  · obtain ⟨_, -, h⟩ := bind_eq_ok.mp h
    obtain rfl := Except.ok.inj h
    rw [hreg, if_pos rfl, if_neg (by decide), if_neg (by decide)]
  · obtain rfl := Except.ok.inj h
    rw [if_neg hreg, if_neg hm, if_neg hr]

/-- The last property of each name counts. -/
theorem foldlM_addCore {address size : ℕ} (ps : List Property) {info : CpuInformation}
    (h : ps.foldlM (addCore address size) {} = .ok info) :
    info = ⟨((ps.reverse.find? (·.name == regName)).map fun p => p.field address 0).getD 0,
      ((ps.reverse.find? (·.name == enableMethodName)).map Property.enableMethod).getD .unknown,
      ((ps.reverse.find? (·.name == releaseAddrName)).map fun p => p.field 2 0).getD 0⟩ := by
  have hreg := foldlM_last_named CpuInformation.reg regName (fun p => p.field address 0)
    (fun hs => congrArg CpuInformation.reg (addCore_sets hs)) h
  have hmethod := foldlM_last_named CpuInformation.enableMethod enableMethodName
    Property.enableMethod (fun hs => congrArg CpuInformation.enableMethod (addCore_sets hs)) h
  have hrelease := foldlM_last_named CpuInformation.releaseAddress releaseAddrName
    (fun p => p.field 2 0) (fun hs => congrArg CpuInformation.releaseAddress (addCore_sets hs)) h
  rw [show info = ⟨info.reg, info.enableMethod, info.releaseAddress⟩ from rfl, hreg, hmethod,
    hrelease]

/-- **`CPU::dt_parse`** on the frame of a node takes over the core that the node describes. -/
theorem cpuInfo_core {m : Mem} {n : Node} {f : NodeFrame} (hf : FrameOf m n f)
    (hi : n.ignored = false) (hroom : n.kept.length < maxPropsPerNode)
    (hfit : f.parentCells.address + f.parentCells.size < 2 ^ 30) (htyped : n.CoreTyped)
    {info : CpuInformation} (h : cpuInfo m f {} = .ok info) :
    info = n.core f.parentCells.address := by
  have hkept : n.kept.foldlM (addCore f.parentCells.address f.parentCells.size) {} = .ok info := by
    rw [cpuInfo] at h
    refine (foldlM_frame_ok_iff hf hroom ?_ {} info).mp h
    intro i p s r hmem hat hp
    obtain ⟨hstring, hcells⟩ := htyped p hmem
    rw [cpuProp, hat, ok_bind, strcmp_branch hp.name (by decide),
      strcmp_branch hp.name (by decide), strcmp_branch hp.name (by decide), addCore]
    by_cases hm : p.name = enableMethodName
    · have hm' : p.name = cstr "enable-method" := hm
      have hmethod := fun e => @enableMethodOf_eq_ok m _ p hp.value (hstring hm) e
      simp only [if_pos hm, if_pos hm', bind_eq_ok, hmethod, kassert_eq_ok, pure_eq_ok]
      constructor
      · rintro ⟨e, ⟨hne, rfl⟩, hr⟩
        exact ⟨(), hne, hr⟩
      · rintro ⟨_, hne, hr⟩
        exact ⟨_, ⟨hne, rfl⟩, hr⟩
    have hm' : ¬ p.name = cstr "enable-method" := hm
    rw [if_neg hm, if_neg hm']
    by_cases ha : p.name = releaseAddrName
    · have ha' : p.name = cstr "cpu-release-addr" := ha
      have hread : be64 m (f.props i).value = .ok (p.field 2 0) := by
        rw [be64_beNat hp.value (hcells ha)]
        rfl
      rw [if_pos ha, if_pos ha', hread]
      rfl
    have ha' : ¬ p.name = cstr "cpu-release-addr" := ha
    rw [if_neg ha, if_neg ha']
    by_cases hreg : p.name = regName
    · have hreg' : p.name = cstr "reg" := hreg
      have hread := fun r => @cpuReg_eq_ok m _ p _ hp hfit r
      simp only [if_pos hreg, if_pos hreg', bind_eq_ok, hread, kassert_eq_ok, pure_eq_ok]
      constructor
      · rintro ⟨e, ⟨hlen, rfl⟩, hr⟩
        exact ⟨(), hlen, hr⟩
      · rintro ⟨_, hlen, hr⟩
        exact ⟨_, ⟨hlen, rfl⟩, hr⟩
    · have hreg' : ¬ p.name = cstr "reg" := hreg
      rw [if_neg hreg, if_neg hreg']
      rfl
  have hcore := foldlM_addCore n.kept hkept
  rwa [find?_kept hi (by decide), find?_kept hi (by decide), find?_kept hi (by decide)] at hcore

/-! ### The PSCI node -/

def cpuOnName : List UInt8 := cstr "cpu_on"

def methodName : List UInt8 := cstr "method"

def Property.psciMethod (p : Property) : PsciMethod :=
  if p.text = cstr "hvc" then .hypervisor
  else if p.text = cstr "smc" then .secureMonitor
  else .unknown

/-- **What a PSCI node sets**, over what was set before. -/
def Node.psci (s : Psci) (n : Node) : Psci where
  cpuOn := ((n.prop? cpuOnName).map fun p => beNat p.value).getD s.cpuOn
  method := ((n.prop? methodName).map Property.psciMethod).getD s.method

/-- The method of a PSCI node is a string. -/
def Node.PsciTyped (n : Node) : Prop := ∀ p ∈ n.kept, p.name = methodName → 0 ∈ p.value

instance (n : Node) : Decidable n.PsciTyped :=
  inferInstanceAs (Decidable (∀ p ∈ n.kept, p.name = methodName → 0 ∈ p.value))

theorem psciMethodFromStr_eq_ok {m : Mem} {a : ℕ} {p : Property} (h : Holds m a p.value)
    (h0 : 0 ∈ p.value) {e : PsciMethod} :
    psciMethodFromStr m a = .ok e ↔ p.psciMethod ≠ .unknown ∧ p.psciMethod = e := by
  have htext := strAt_text h h0
  rw [psciMethodFromStr, strcmp_branch htext (by decide), strcmp_branch htext (by decide),
    Property.psciMethod]
  split
  · simp
  · split <;> simp

/-- A value of one or two cells is read as a number. -/
theorem readProp_eq_ok {m : Mem} {pf : PropFrame} {p : Property} (hp : PropIs m pf p) {v : ℕ} :
    readProp m pf = .ok v ↔ (p.value.length = 4 ∨ p.value.length = 8) ∧ beNat p.value = v := by
  rw [readProp, hp.len]
  by_cases h4 : p.value.length = 4
  · rw [if_pos h4, be32_beNat hp.value (by omega), List.take_of_length_le (by omega)]
    simp [h4]
  by_cases h8 : p.value.length = 8
  · rw [if_neg h4, if_pos h8, be64_beNat hp.value (by omega), List.take_of_length_le (by omega)]
    simp [h8]
  · rw [if_neg h4, if_neg h8]
    simp [h4, h8]

/-- What one property of a PSCI node amounts to. -/
def addPsci (s : Psci) (p : Property) : Exec Psci :=
  if p.name = cpuOnName then do
    kassert (p.value.length = 4 ∨ p.value.length = 8) "cpu_on"
    return { s with cpuOn := beNat p.value }
  else if p.name = methodName then do
    kassert (p.psciMethod ≠ .unknown) "method"
    return { s with method := p.psciMethod }
  else
    .ok s

/-- What one property sets. -/
theorem addPsci_sets {s s' : Psci} {p : Property} (h : addPsci s p = .ok s') :
    s' = ⟨if p.name = cpuOnName then beNat p.value else s.cpuOn,
      if p.name = methodName then p.psciMethod else s.method⟩ ∧
      (s.method ≠ .unknown → s'.method ≠ .unknown) := by
  simp only [addPsci, pure_eq_ok] at h
  split_ifs at h with hon hm
  · obtain ⟨_, -, h⟩ := bind_eq_ok.mp h
    obtain rfl := Except.ok.inj h
    rw [hon, if_pos rfl, if_neg (by decide)]
    exact ⟨rfl, id⟩
  · obtain ⟨_, hne, h⟩ := bind_eq_ok.mp h
    obtain rfl := Except.ok.inj h
    rw [hm, if_neg (by decide), if_pos rfl]
    exact ⟨rfl, fun _ => kassert_eq_ok.mp hne⟩
  · obtain rfl := Except.ok.inj h
    rw [if_neg hon, if_neg hm]
    exact ⟨rfl, id⟩

/-- The last property of each name counts, and no method is unknown. -/
theorem foldlM_addPsci (ps : List Property) {s s' : Psci} (h : ps.foldlM addPsci s = .ok s') :
    s' = ⟨((ps.reverse.find? (·.name == cpuOnName)).map fun p => beNat p.value).getD s.cpuOn,
      ((ps.reverse.find? (·.name == methodName)).map Property.psciMethod).getD s.method⟩ ∧
      (s.method ≠ .unknown → s'.method ≠ .unknown) := by
  have hcpuOn := foldlM_last_named Psci.cpuOn cpuOnName (fun p => beNat p.value)
    (fun hs => congrArg Psci.cpuOn (addPsci_sets hs).1) h
  have hmethod := foldlM_last_named Psci.method methodName Property.psciMethod
    (fun hs => congrArg Psci.method (addPsci_sets hs).1) h
  refine ⟨by rw [← hcpuOn, ← hmethod], fun hs => ?_⟩
  exact foldlM_invariant (fun _ t => t.method ≠ .unknown) hs
    (fun _ _ _ _ _ _ ht hstep => (addPsci_sets hstep).2 ht) h

/-- **`PSCI::dt_parse`** on the frame of a node sets what the node says. -/
theorem psciDtParse_psci {m : Mem} {n : Node} {f : NodeFrame} (hf : FrameOf m n f)
    (hroom : n.kept.length < maxPropsPerNode) (htyped : n.PsciTyped) {s s' : Psci}
    (h : psciDtParse m f s = .ok s') :
    s' = (if n.ignored then s else n.psci s) ∧ (s.method ≠ .unknown → s'.method ≠ .unknown) := by
  have hkept : n.kept.foldlM addPsci s = .ok s' := by
    rw [psciDtParse] at h
    refine (foldlM_frame_ok_iff hf hroom ?_ s s').mp h
    intro i p s r hmem hat hp
    rw [psciProp, hat, ok_bind, strcmp_branch hp.name (by decide),
      strcmp_branch hp.name (by decide), addPsci]
    by_cases hon : p.name = cpuOnName
    · have hon' : p.name = cstr "cpu_on" := hon
      have hread := fun v => @readProp_eq_ok m _ p hp v
      simp only [if_pos hon, if_pos hon', bind_eq_ok, hread, kassert_eq_ok, pure_eq_ok]
      constructor
      · rintro ⟨v, ⟨hlen, rfl⟩, hr⟩
        exact ⟨(), hlen, hr⟩
      · rintro ⟨_, hlen, hr⟩
        exact ⟨_, ⟨hlen, rfl⟩, hr⟩
    have hon' : ¬ p.name = cstr "cpu_on" := hon
    rw [if_neg hon, if_neg hon']
    by_cases hm : p.name = methodName
    · have hm' : p.name = cstr "method" := hm
      have hmethod := fun e => @psciMethodFromStr_eq_ok m _ p hp.value (htyped p hmem hm) e
      simp only [if_pos hm, if_pos hm', bind_eq_ok, hmethod, kassert_eq_ok, pure_eq_ok]
      constructor
      · rintro ⟨e, ⟨hne, rfl⟩, hr⟩
        exact ⟨(), hne, hr⟩
      · rintro ⟨_, hne, hr⟩
        exact ⟨_, ⟨hne, rfl⟩, hr⟩
    · have hm' : ¬ p.name = cstr "method" := hm
      rw [if_neg hm, if_neg hm']
      rfl
  obtain ⟨heq, hknown⟩ := foldlM_addPsci n.kept hkept
  refine ⟨?_, hknown⟩
  by_cases hi : n.ignored = false
  · rw [find?_kept hi (by decide), find?_kept hi (by decide)] at heq
    rw [if_neg (by simp [hi])]
    exact heq
  · have hempty : n.kept = [] := by simp [Node.kept, hi]
    simpa [hempty, hi] using heq

end Floss
