import Floss.CellProgram
import Floss.PassBounds
import Floss.Platform

/-!
# The Passes as Programs over the Members of the Frames

Three members of a frame have no initialiser: `_name`, `_nprops` and `_props`. Here both passes
and all handlers are programs that load these members from cells and store into them, while the
other members are at hand. What a pass reads and writes is then the trace of its program.

* `FrameField`, `FieldValue`: the cells; `withCells` puts their contents into frames;
* `phandleStepProg`, `fullStepProg`, `onNodeProg` and the programs they are made of: each is
  the function of its name, with the accesses to the cells made explicit;
* `computes_onNodeProg`, `realizes_phandleStepProg`, `realizes_fullStepProg`: **they do what these
  functions do**. On all frames and cells the programs end as the functions do, with the same
  faults;
* `phandleStep_footprint`, `fullStep_footprint`: what a token makes the passes read and change.
-/

namespace Floss

/-! ### The cells -/

/-- The members of a frame that have no initialiser. -/
inductive FrameField
  | name
  | nprops
  | prop (i : ℕ)
  deriving DecidableEq, Repr

/-- What a member holds, in the frame of any slot. -/
abbrev FieldValue : ℕ × FrameField → Type
  | (_, .name) => ℕ
  | (_, .nprops) => ℕ
  | (_, .prop _) => PropFrame

abbrev FrameProgram (α : Type) := CellProgram FieldValue Fault α

/-- The contents of all cells. -/
abbrev FrameCells := ∀ r : ℕ × FrameField, FieldValue r

/-- The cells of frames. -/
def cellsOf (frames : ℕ → NodeFrame) : FrameCells
  | (i, .name) => (frames i).name
  | (i, .nprops) => (frames i).nprops
  | (i, .prop j) => (frames i).props j

/-- The frame of slot `i` with the contents of its cells in place of its own. -/
def NodeFrame.withCells (f : NodeFrame) (cells : FrameCells) (i : ℕ) : NodeFrame :=
  { f with
    name := cells (i, .name)
    nprops := cells (i, .nprops)
    props := fun j => cells (i, .prop j) }

def withCells (frames : ℕ → NodeFrame) (cells : FrameCells) (i : ℕ) : NodeFrame :=
  (frames i).withCells cells i

def ParsingFrame.withCells (pf : ParsingFrame) (cells : FrameCells) : ParsingFrame where
  nodeFrame := Floss.withCells pf.nodeFrame cells
  top := pf.top

/-- A frame with the initialised members of `f`, and `prop` for each property. -/
def NodeFrame.showing (f : NodeFrame) (prop : PropFrame) : NodeFrame :=
  { f with name := nullptr, nprops := 0, props := fun _ => prop }

/-! ### Programs for handlers -/

section Handlers

variable {σ : Type} (m : Mem)

def loadName (node : ℕ) : FrameProgram ℕ := CellProgram.get (node, FrameField.name)

def loadNprops (node : ℕ) : FrameProgram ℕ := CellProgram.get (node, FrameField.nprops)

/-- The property in a slot of the frame. -/
def propAtProg (node j : ℕ) : FrameProgram PropFrame := do
  inBounds j maxPropsPerNode
  CellProgram.get (node, FrameField.prop j)

/-- A loop over the properties of a frame. -/
def eachProp (node : ℕ) (body : σ → PropFrame → FrameProgram σ) (s : σ) : FrameProgram σ := do
  let nprops ← loadNprops node
  (List.range nprops).foldlM (fun s j => do body s (← propAtProg node j)) s

/-- `find_prop`, from slot `j` on. -/
def findPropFromProg (node : ℕ) (name : List UInt8) :
    (left j : ℕ) → FrameProgram (Option PropFrame)
  | 0, _ => pure none
  | left + 1, j => do
      let prop ← propAtProg node j
      if (← strcmp m prop.name name) = 0 then
        return some prop
      else
        findPropFromProg node name left (j + 1)

def findPropProg (node : ℕ) (name : List UInt8) : FrameProgram (Option PropFrame) := do
  let nprops ← loadNprops node
  findPropFromProg m node name nprops 0

variable (frames : ℕ → NodeFrame)

def translateFromProg : (fuel : ℕ) → (bus : Option ℕ) → (address : ℕ) → FrameProgram ℕ
  | _, none, address => pure address
  | 0, some _, _ => liftM (.error .fuel : Exec ℕ)
  | fuel + 1, some bus, address => do
      let ranges ← findPropProg m bus (cstr "ranges")
      let address ← translateRanges m (frames bus) ranges address
      translateFromProg fuel (frames bus).parent address

def translateAddressProg (fuel node address : ℕ) : FrameProgram ℕ :=
  translateFromProg m frames fuel (frames node).parent address

variable (table : PhandleTable) (node : ℕ)

def uartDisabledProg : (left j : ℕ) → FrameProgram Bool
  | 0, _ => pure false
  | left + 1, j => do
      let prop ← propAtProg node j
      if (← strcmp m prop.name (cstr "status")) = 0 then
        if (← strcmp m prop.value (cstr "okay")) ≠ 0 then
          return true
        else
          uartDisabledProg left (j + 1)
      else
        uartDisabledProg left (j + 1)

def uartRegProg (cells : NodeCells) (prop : PropFrame) (first : σ → RegPair → FrameProgram σ)
    (s : σ) : FrameProgram σ := do
  let rpSizeBytes := cells.byteSize
  let numRegPairs ← udiv prop.len rpSizeBytes
  kassert ((← umod prop.len rpSizeBytes) = 0) "Invalid reg length (%d, rp size %d)\n"
  (List.range numRegPairs).foldlM (fun s j => do
    let rp ← readRegPair m cells (prop.value + j * rpSizeBytes)
    if j = 0 then first s rp else return s) s

def uartFirstProg (s : UartNode) (rp : RegPair) : FrameProgram UartNode := do
  let phys ← translateAddressProg m frames maxNodeDepth node rp.address
  let devices ← addRegion s.devices phys rp.length
  return { s with uart := phys, devices := devices }

/-- One property of a UART node. Only `reg` makes further loads. -/
def uartPropProg (fuel : ℕ) (s : UartNode) (prop : PropFrame) : FrameProgram UartNode := do
  if (← strcmp m prop.name (cstr "reg")) = 0 then
    uartRegProg m (frames node).parentCells prop (uartFirstProg m frames node) s
  else
    uartProp m table (fun i => (frames i).showing prop) node fuel s 0

def uartDtParseProg (fuel : ℕ) (s : UartNode) : FrameProgram UartNode := do
  let nprops ← loadNprops node
  if ← uartDisabledProg m node nprops 0 then
    return s
  else
    eachProp node (uartPropProg m frames table node fuel) s

def gicDtParseProg (version : GicVersion) (garbage : ℕ → RegPair) (s : GicNode) :
    FrameProgram GicNode := do
  kassert (s.driver = none) "precond\n"
  let regs ← eachProp node
    (fun regs prop => liftM (gicProp m ((frames node).showing prop) regs 0)) garbage
  let gicd ← translateAddressProg m frames maxNodeDepth node (regs 0).address
  let second ← translateAddressProg m frames maxNodeDepth node (regs 1).address
  let devices ← addRegion s.devices gicd (regs 0).length
  let devices ← addRegion devices second (regs 1).length
  return ⟨some version, gicd, second, devices⟩

def cpuDtParseProg (t : CpuTable) : FrameProgram CpuTable := do
  kassert (t.num < maxSupportedCpus) "precond\n"
  let info ← eachProp node
    (fun info prop => liftM (cpuProp m ((frames node).showing prop) info 0)) (t.info t.num)
  return { num := t.num + 1, info := Function.update t.info t.num info }

/-- The handlers of `Platform.onNode`. -/
def onNodeProg (fuel : ℕ) (garbage : ℕ → RegPair) (s : Platform) (c : HandlerCall) :
    FrameProgram Platform :=
  let f := c.frames c.node
  match c.handler.onNode with
  | .psciDtParse => do
      let psci ← eachProp c.node (fun s prop => liftM (psciProp m (f.showing prop) s 0)) s.psci
      return { s with psci := psci }
  | .uartDtParse => do
      let uart ← uartDtParseProg m c.frames table c.node fuel { s.uart with devices := s.devices }
      return { s with uart := uart, devices := uart.devices }
  | .memoryDtParse => do
      let ram ← eachProp c.node
        (fun ram prop => liftM (memoryProp m (f.showing prop) ram 0)) s.ram
      return { s with ram := ram }
  | .cpuDtParse => do
      return { s with cpus := ← cpuDtParseProg m c.frames c.node s.cpus }
  | .timerDtParse => do
      let timer ← eachProp c.node
        (fun s prop => liftM (timerProp m table (f.showing prop) s 0)) s.timer
      return { s with timer := timer }
  | .gicDtParseV2 => do
      let gic ← gicDtParseProg m c.frames c.node .v2 garbage { s.gic with devices := s.devices }
      return { s with gic := gic, devices := gic.devices }
  | .gicDtParseV3 => do
      let gic ← gicDtParseProg m c.frames c.node .v3 garbage { s.gic with devices := s.devices }
      return { s with gic := gic, devices := gic.devices }

end Handlers

/-! ### What the handlers compute -/

section Computes

open CellProgram

variable {σ : Type} {m : Mem} {cells : FrameCells} {frames : ℕ → NodeFrame} {node : ℕ}

theorem computes_propAtProg (frames : ℕ → NodeFrame) (j : ℕ) :
    Computes (propAtProg node j) cells ((withCells frames cells node).propAt j) :=
  (computes_lift _ _).bind fun _ _ => computes_get _ _

/-- A loop over properties, each of which is loaded once. -/
theorem computes_eachProp (frames : ℕ → NodeFrame) {body : σ → PropFrame → FrameProgram σ}
    {k : σ → PropFrame → Exec σ} {g : σ → ℕ → Exec σ}
    (hbody : ∀ s prop, Computes (body s prop) cells (k s prop))
    (hg : ∀ s j, g s j = (withCells frames cells node).propAt j >>= k s) (s : σ) :
    Computes (eachProp node body s) cells
      ((List.range (withCells frames cells node).nprops).foldlM g s) := by
  rw [show g = fun s j => (withCells frames cells node).propAt j >>= k s from funext₂ hg]
  refine (computes_get cells (node, FrameField.nprops)).bind
    (g := fun n => (List.range n).foldlM
      (fun s j => (withCells frames cells node).propAt j >>= k s) s) fun n _ => ?_
  exact computes_foldlM
    (fun s j => (computes_propAtProg frames j).bind fun prop _ => hbody s prop) s

/-- A loop that loads nothing else. -/
theorem computes_ownProps (frames : ℕ → NodeFrame) {k : σ → PropFrame → Exec σ}
    {g : σ → ℕ → Exec σ} (hg : ∀ s j, g s j = (withCells frames cells node).propAt j >>= k s)
    (s : σ) :
    Computes (eachProp node (fun s prop => liftM (k s prop)) s) cells
      ((List.range (withCells frames cells node).nprops).foldlM g s) :=
  computes_eachProp frames (fun _ _ => computes_lift _ _) hg s

theorem computes_findPropFromProg (frames : ℕ → NodeFrame) (name : List UInt8) (left j : ℕ) :
    Computes (findPropFromProg m node name left j) cells
      ((withCells frames cells node).findPropFrom m name left j) := by
  induction left generalizing j with
  | zero => exact computes_pure _ _
  | succ left ih =>
      refine (computes_propAtProg frames j).bind fun prop _ => ?_
      refine (computes_lift _ _).bind fun r _ => ?_
      split
      · exact computes_pure _ _
      · exact ih (j + 1)

theorem computes_findPropProg (frames : ℕ → NodeFrame) (name : List UInt8) :
    Computes (findPropProg m node name) cells
      ((withCells frames cells node).findProp m name) :=
  (computes_get cells (node, FrameField.nprops)).bind
    (g := fun n => (withCells frames cells node).findPropFrom m name n 0)
    fun n _ => computes_findPropFromProg frames name n 0

theorem computes_translateFromProg (fuel : ℕ) (bus : Option ℕ) (address : ℕ) :
    Computes (translateFromProg m frames fuel bus address) cells
      (translateFrom m (withCells frames cells) fuel bus address) := by
  induction fuel generalizing bus address with
  | zero =>
      cases bus with
      | none => exact computes_pure _ _
      | some bus => exact computes_lift _ _
  | succ fuel ih =>
      cases bus with
      | none => exact computes_pure _ _
      | some bus =>
          refine (computes_findPropProg frames _).bind fun ranges _ => ?_
          exact (computes_lift _ _).bind fun address _ => ih _ address

theorem computes_uartDisabledProg (frames : ℕ → NodeFrame) (left j : ℕ) :
    Computes (uartDisabledProg m node left j) cells
      (uartDisabled m (withCells frames cells node) left j) := by
  induction left generalizing j with
  | zero => exact computes_pure _ _
  | succ left ih =>
      refine (computes_propAtProg frames j).bind fun prop _ => ?_
      refine (computes_lift _ _).bind fun r _ => ?_
      split
      · refine (computes_lift _ _).bind fun r _ => ?_
        split
        · exact computes_pure _ _
        · exact ih (j + 1)
      · exact ih (j + 1)

theorem computes_uartFirstProg (s : UartNode) (rp : RegPair) :
    Computes (uartFirstProg m frames node s rp) cells
      (uartFirst m (withCells frames cells) node s rp) :=
  (computes_translateFromProg _ _ _).bind fun _ _ =>
    (computes_lift _ _).bind fun _ _ => computes_pure _ _

theorem computes_uartRegTurn {regCells : NodeCells} {prop : PropFrame}
    {first : σ → RegPair → FrameProgram σ} {g : σ → RegPair → Exec σ}
    (hfirst : ∀ s rp, Computes (first s rp) cells (g s rp)) (s : σ) (j : ℕ) :
    Computes (do
      let rp ← readRegPair m regCells (prop.value + j * regCells.byteSize)
      if j = 0 then first s rp else return s : FrameProgram σ) cells (do
      let rp ← readRegPair m regCells (prop.value + j * regCells.byteSize)
      if j = 0 then g s rp else return s) := by
  refine (computes_lift _ _).bind fun rp _ => ?_
  split
  · exact hfirst s rp
  · exact computes_pure _ _

theorem computes_uartRegProg {regCells : NodeCells} {prop : PropFrame}
    {first : σ → RegPair → FrameProgram σ} {g : σ → RegPair → Exec σ}
    (hfirst : ∀ s rp, Computes (first s rp) cells (g s rp)) (s : σ) :
    Computes (uartRegProg m regCells prop first s) cells (uartReg m regCells prop g s) :=
  (computes_lift _ _).bind fun _ _ => (computes_lift _ _).bind fun _ _ =>
    (computes_lift _ _).bind fun _ _ => computes_foldlM (computes_uartRegTurn hfirst) s

variable {table : PhandleTable}

/-- One property of a UART node, by its contents. -/
def uartPropOf (m : Mem) (table : PhandleTable) (frames : ℕ → NodeFrame) (node fuel : ℕ)
    (s : UartNode) (prop : PropFrame) : Exec UartNode := do
  if (← strcmp m prop.name (cstr "reg")) = 0 then
    uartReg m (frames node).parentCells prop (uartFirst m frames node) s
  else
    uartProp m table (fun i => (frames i).showing prop) node fuel s 0

theorem uartProp_eq (fuel : ℕ) (s : UartNode) (j : ℕ) :
    uartProp m table frames node fuel s j =
      (frames node).propAt j >>= uartPropOf m table frames node fuel s := by
  rw [uartProp]
  refine bind_congr fun prop => ?_
  have hshown : ((frames node).showing prop).propAt 0 = .ok prop := rfl
  rw [uartPropOf, uartProp, hshown]
  cases hname : strcmp m prop.name (cstr "reg") with
  | error e => rfl
  | ok r =>
      simp only [ok_bind, hname]
      by_cases hr : r = 0
      · rw [if_pos hr, if_pos hr]
      · rw [if_neg hr, if_neg hr, if_neg hr]
        rfl

theorem computes_uartPropProg (fuel : ℕ) (s : UartNode) (prop : PropFrame) :
    Computes (uartPropProg m frames table node fuel s prop) cells
      (uartPropOf m table (withCells frames cells) node fuel s prop) := by
  refine (computes_lift _ _).bind fun r _ => ?_
  split
  · exact computes_uartRegProg computes_uartFirstProg s
  · exact computes_lift _ _

theorem computes_uartDtParseProg (fuel : ℕ) (s : UartNode) :
    Computes (uartDtParseProg m frames table node fuel s) cells
      (uartDtParse m table (withCells frames cells) node fuel s) := by
  refine (computes_get cells (node, FrameField.nprops)).bind
    (g := fun n => uartDisabled m (withCells frames cells node) n 0 >>= fun disabled =>
      if disabled then .ok s
      else (List.range (withCells frames cells node).nprops).foldlM
        (uartProp m table (withCells frames cells) node fuel) s)
    fun n _ => (computes_uartDisabledProg frames n 0).bind fun disabled _ => ?_
  cases disabled with
  | true => exact computes_pure _ _
  | false =>
      exact computes_eachProp _ (computes_uartPropProg fuel) (uartProp_eq fuel) s

theorem computes_gicDtParseProg (version : GicVersion) (garbage : ℕ → RegPair) (s : GicNode) :
    Computes (gicDtParseProg m frames node version garbage s) cells
      (gicDtParse version m (withCells frames cells) node garbage s) := by
  refine (computes_lift _ _).bind fun _ _ => ?_
  refine (computes_ownProps _ (fun _ _ => rfl) _).bind fun regs _ => ?_
  refine (computes_translateFromProg _ _ _).bind fun gicd _ => ?_
  refine (computes_translateFromProg _ _ _).bind fun second _ => ?_
  refine (computes_lift _ _).bind fun devices _ => (computes_lift _ _).bind fun devices _ => ?_
  exact computes_pure _ _

theorem computes_cpuDtParseProg (t : CpuTable) :
    Computes (cpuDtParseProg m frames node t) cells
      (t.dtParse m (withCells frames cells node)) := by
  refine (computes_lift _ _).bind fun _ _ => ?_
  refine (computes_ownProps _ (fun _ _ => rfl) _).bind fun info _ => ?_
  exact computes_pure _ _

/-- A call on frames whose cells are elsewhere. -/
def HandlerCall.withCells (c : HandlerCall) (cells : FrameCells) : HandlerCall :=
  { c with frames := Floss.withCells c.frames cells }

/-- **Handlers load and compute.** -/
theorem computes_onNodeProg (fuel : ℕ) (garbage : ℕ → RegPair) (s : Platform) (c : HandlerCall)
    (cells : FrameCells) :
    Computes (onNodeProg m table fuel garbage s c) cells
      (Platform.onNode m fuel garbage table s (c.withCells cells)) := by
  obtain ⟨handler, frames, node⟩ := c
  rw [onNodeProg, Platform.onNode, HandlerCall.withCells]
  cases handler.onNode with
  | psciDtParse => exact (computes_ownProps _ (fun _ _ => rfl) _).bind fun _ _ => computes_pure _ _
  | uartDtParse => exact (computes_uartDtParseProg fuel _).bind fun _ _ => computes_pure _ _
  | memoryDtParse =>
      exact (computes_ownProps _ (fun _ _ => rfl) _).bind fun _ _ => computes_pure _ _
  | cpuDtParse => exact (computes_cpuDtParseProg _).bind fun _ _ => computes_pure _ _
  | timerDtParse => exact (computes_ownProps _ (fun _ _ => rfl) _).bind fun _ _ => computes_pure _ _
  | gicDtParseV2 => exact (computes_gicDtParseProg .v2 garbage _).bind fun _ _ => computes_pure _ _
  | gicDtParseV3 => exact (computes_gicDtParseProg .v3 garbage _).bind fun _ _ => computes_pure _ _

end Computes

/-! ### Programs for the passes -/

section Passes

variable {σ : Type} (m : Mem)

/-- `BeginNode` in either pass; `enter` moves to the slot of a node that is not the root. -/
def beginNodeProg (enter : ParsingFrame → Exec ParsingFrame) (pf : ParsingFrame) (dtp : Parser) :
    FrameProgram ParsingFrame := do
  let notRoot ← strcmp m dtp.nodeName (cstr "")
  let pf ← (if notRoot ≠ 0 then enter pf else .ok pf : Exec ParsingFrame)
  inBounds pf.top maxNodeDepth
  CellProgram.set (pf.top, FrameField.name) dtp.nodeName
  CellProgram.set (pf.top, FrameField.nprops) (0 : ℕ)
  return pf

/-- Store a property in the current frame and count it; `f` is the frame that is to be left
there. -/
def storePropProg (track : ℕ → Exec NodeFrame) (pf : ParsingFrame) (dtp : Parser) :
    FrameProgram ParsingFrame := do
  let nprops ← loadNprops pf.top
  inBounds nprops maxPropsPerNode
  CellProgram.set (pf.top, FrameField.prop nprops)
    (⟨dtp.propName, dtp.propValue, dtp.propLen⟩ : PropFrame)
  let f ← track nprops
  let pf ← pf.setCurrent f
  CellProgram.set (pf.top, FrameField.nprops) (nprops + 1 : ℕ)
  kassert (nprops + 1 < maxPropsPerNode) "postcond\n"
  return pf

def phandlePropProg (pf : ParsingFrame) (dtp : Parser) : FrameProgram ParsingFrame := do
  let f ← pf.current
  if ← isIgnoredNode m (← loadName pf.top) then
    return pf
  storePropProg (fun _ => .ok f) pf dtp

def phandleStepProg (st : ParsingFrame × PhandleTable) (dtp : Parser) :
    FrameProgram (ParsingFrame × PhandleTable) :=
  let (pf, table) := st
  match dtp.current with
  | .beginNode => do
      return (← beginNodeProg m phandleEnter pf dtp, table)
  | .endNode => do
      let f ← pf.current
      let mapping ← eachProp pf.top
        (fun mapping prop => liftM (mapProp m (f.showing prop) mapping 0)) {}
      let table ← if mapping.phandle ≠ 0 then table.add mapping else pure table
      return (pf.pop, table)
  | .prop => do
      return (← phandlePropProg m pf dtp, table)
  | .nop | .fdtEnd => pure (pf, table)

def fullPropProg (pf : ParsingFrame) (dtp : Parser) : FrameProgram ParsingFrame := do
  let f ← pf.current
  if ← isIgnoredNode m (← loadName pf.top) then
    return pf
  if (← strcmp m dtp.propName (cstr "#address-cells")) = 0 then
    let v ← be32 m dtp.propValue
    pf.setCurrent { f with ownCells := { f.ownCells with address := v } }
  else if (← strcmp m dtp.propName (cstr "#size-cells")) = 0 then
    let v ← be32 m dtp.propValue
    pf.setCurrent { f with ownCells := { f.ownCells with size := v } }
  else if (← strcmp m dtp.propName (cstr "interrupt-parent")) = 0 then
    let v ← be32 m dtp.propValue
    pf.setCurrent { f with ownCells := { f.ownCells with interruptParent := v } }
  else
    storePropProg (fun nprops => trackProp m { f with nprops := nprops } dtp) pf dtp

/-- The property that a remembered index points to. -/
def propIdxProg (node : ℕ) (idx : ℤ) : FrameProgram (Option PropFrame) :=
  if idx < 0 then
    pure none
  else do
    return some (← propAtProg node idx.toNat)

def dispatchEntryProg (onNode : σ → HandlerCall → FrameProgram σ) (pf : ParsingFrame)
    (compatibleProp deviceTypeProp : Option PropFrame) (s : σ) (handler : NodeHandler) :
    FrameProgram σ :=
  match handlerMatch compatibleProp deviceTypeProp handler.matchKind with
  | none => pure s
  | some prop => do
      if ← compatibleListContains m prop.value prop.len handler.matchString then
        onNode s ⟨handler, pf.nodeFrame, pf.top⟩
      else
        return s

def fullStepProg (onNode : σ → HandlerCall → FrameProgram σ) (st : ParsingFrame × σ)
    (dtp : Parser) : FrameProgram (ParsingFrame × σ) :=
  let (pf, s) := st
  match dtp.current with
  | .beginNode => do
      return (← beginNodeProg m fullEnter pf dtp, s)
  | .endNode => do
      let f ← pf.current
      let compatibleProp ← propIdxProg pf.top f.compatiblePropIdx
      let deviceTypeProp ← propIdxProg pf.top f.deviceTypePropIdx
      let s ← nodeHandlers.foldlM (dispatchEntryProg m onNode pf compatibleProp deviceTypeProp) s
      return (pf.pop, s)
  | .prop => do
      return (← fullPropProg m pf dtp, s)
  | .nop | .fdtEnd => pure (pf, s)

/-! ### What the passes do -/

variable {m}

section Stores

variable (frames : ℕ → NodeFrame) (cells : FrameCells) (i : ℕ)

theorem withCells_store_name (v : ℕ) :
    withCells frames (Function.update cells (i, FrameField.name) v) =
      Function.update (withCells frames cells) i { withCells frames cells i with name := v } := by
  funext k
  by_cases hk : k = i
  · subst hk
    simp [withCells, NodeFrame.withCells]
  · simp [withCells, NodeFrame.withCells, hk]

theorem withCells_store_nprops (v : ℕ) :
    withCells frames (Function.update cells (i, FrameField.nprops) v) =
      Function.update (withCells frames cells) i { withCells frames cells i with nprops := v } := by
  funext k
  by_cases hk : k = i
  · subst hk
    simp [withCells, NodeFrame.withCells]
  · simp [withCells, NodeFrame.withCells, hk]

theorem withCells_store_prop (j : ℕ) (prop : PropFrame) :
    withCells frames (Function.update cells (i, FrameField.prop j) prop) =
      Function.update (withCells frames cells) i { withCells frames cells i with
        props := Function.update (withCells frames cells i).props j prop } := by
  funext k
  by_cases hk : k = i
  · subst hk
    simp [withCells, NodeFrame.withCells]
    funext l
    by_cases hl : l = j
    · subst hl
      simp
    · simp [hl]
  · simp [withCells, NodeFrame.withCells, hk]

theorem withCells_update (f : NodeFrame) :
    withCells (Function.update frames i f) cells =
      Function.update (withCells frames cells) i (f.withCells cells i) := by
  funext k
  by_cases hk : k = i
  · subst hk
    simp [withCells]
  · simp [withCells, hk]

end Stores

section Ties

open CellProgram

variable {σ : Type} {pf : ParsingFrame} {cells : FrameCells} {dtp : Parser}

theorem current_withCells (pf : ParsingFrame) (cells : FrameCells) :
    (pf.withCells cells).current = pf.current.map (·.withCells cells pf.top) := by
  rw [ParsingFrame.current, ParsingFrame.current, ParsingFrame.withCells]
  by_cases htop : pf.top < maxNodeDepth
  · rw [inBounds_of htop]
    rfl
  · rw [inBounds, if_neg htop]
    rfl

theorem setCurrent_withCells (pf : ParsingFrame) (cells : FrameCells) (f : NodeFrame) :
    (pf.withCells cells).setCurrent (f.withCells cells pf.top) =
      (pf.setCurrent f).map (·.withCells cells) := by
  rw [ParsingFrame.setCurrent, ParsingFrame.setCurrent, ParsingFrame.withCells]
  by_cases htop : pf.top < maxNodeDepth
  · rw [inBounds_of htop, ← withCells_update]
    rfl
  · rw [inBounds, if_neg htop]
    rfl

theorem push_withCells (pf : ParsingFrame) (cells : FrameCells) :
    (pf.withCells cells).push = pf.push.map (·.withCells cells) := by
  simp only [ParsingFrame.push]
  by_cases hnext : pf.top + 1 < maxNodeDepth
  · rw [kassert_of hnext, kassert_of (p := (pf.withCells cells).top + 1 < maxNodeDepth) hnext]
    rfl
  · rw [kassert, if_neg (c := (pf.withCells cells).top + 1 < maxNodeDepth) hnext, kassert,
      if_neg hnext]
    rfl

theorem phandleEnter_withCells (pf : ParsingFrame) (cells : FrameCells) :
    phandleEnter (pf.withCells cells) = (phandleEnter pf).map (·.withCells cells) := by
  rw [phandleEnter, phandleEnter, current_withCells, push_withCells]
  cases pf.current with
  | error e => rfl
  | ok f =>
      cases pf.push with
      | error e => rfl
      | ok pf₁ =>
          show (pf₁.withCells cells).current >>= _ = (pf₁.current >>= _).map _
          rw [current_withCells]
          cases pf₁.current with
          | error e => rfl
          | ok f₁ => exact setCurrent_withCells pf₁ cells { f₁ with parentCells := f.ownCells }

theorem fullEnter_withCells (pf : ParsingFrame) (cells : FrameCells) :
    fullEnter (pf.withCells cells) = (fullEnter pf).map (·.withCells cells) := by
  rw [fullEnter, fullEnter, current_withCells, push_withCells]
  cases pf.current with
  | error e => rfl
  | ok f =>
      cases pf.push with
      | error e => rfl
      | ok pf₁ =>
          show (pf₁.withCells cells).current >>= _ = (pf₁.current >>= _).map _
          rw [current_withCells]
          cases pf₁.current with
          | error e => rfl
          | ok f₁ =>
              exact setCurrent_withCells pf₁ cells { f₁ with
                parentCells := f.ownCells
                parent := some (pf₁.top - 1)
                ownCells :=
                  { f₁.ownCells with interruptParent := f.ownCells.interruptParent } }
theorem realizes_nameStores (pf : ParsingFrame) (cells : FrameCells) (dtp : Parser) :
    Realizes (do
        inBounds pf.top maxNodeDepth
        CellProgram.set (pf.top, FrameField.name) dtp.nodeName
        CellProgram.set (pf.top, FrameField.nprops) (0 : ℕ)
        return pf : FrameProgram ParsingFrame) cells ParsingFrame.withCells (do
      let f ← (pf.withCells cells).current
      (pf.withCells cells).setCurrent { f with name := dtp.nodeName, nprops := 0 }) := by
  rw [ParsingFrame.current, ParsingFrame.withCells]
  by_cases htop : pf.top < maxNodeDepth
  · simp only [Realizes, ParsingFrame.setCurrent, inBounds_of htop, pure_eq_ok, ok_bind]
    show Except.ok _ = Except.ok (ParsingFrame.withCells _ _)
    rw [ParsingFrame.withCells, withCells_store_nprops, withCells_store_name]
    simp
  · rw [inBounds, if_neg htop]
    rfl

/-- `BeginNode` of both passes. -/
theorem realizes_beginNodeProg {enter : ParsingFrame → Exec ParsingFrame}
    (henter : ∀ pf cells, enter (ParsingFrame.withCells pf cells) =
      (enter pf).map (·.withCells cells)) :
    Realizes (beginNodeProg m enter pf dtp) cells ParsingFrame.withCells (do
      let notRoot ← strcmp m dtp.nodeName (cstr "")
      let pf ← if notRoot ≠ 0 then enter (pf.withCells cells) else .ok (pf.withCells cells)
      pf.setCurrent { (← pf.current) with name := dtp.nodeName, nprops := 0 }) := by
  refine (computes_lift _ _).realizes_bind fun r _ => ?_
  by_cases hr : r ≠ 0
  · simp only [if_pos hr]
    rw [henter]
    exact realizes_lift_bind fun pf₁ _ => realizes_nameStores pf₁ cells dtp
  · simp only [if_neg hr]
    exact realizes_nameStores pf cells dtp

/-! Properties. -/

theorem withCells_propStored (f : NodeFrame) (cells : FrameCells) (i n : ℕ) (prop : PropFrame) :
    f.withCells (Function.update cells (i, FrameField.prop n) prop) i =
      { f.withCells cells i with
        props := Function.update (f.withCells cells i).props n prop } := by
  simp only [NodeFrame.withCells, NodeFrame.mk.injEq, true_and, and_true]
  refine ⟨by simp, by simp, funext fun j => ?_⟩
  by_cases hj : j = n
  · subst hj
    simp
  · simp [hj]

theorem withCells_storedProp (frames : ℕ → NodeFrame) (cells : FrameCells) (i : ℕ) (f : NodeFrame)
    (n : ℕ) (prop : PropFrame) (v : ℕ) :
    withCells (Function.update frames i f) (Function.update
        (Function.update cells (i, FrameField.prop n) prop) (i, FrameField.nprops) v) =
      Function.update (withCells frames cells) i
        { f.withCells (Function.update cells (i, FrameField.prop n) prop) i with nprops := v } := by
  rw [withCells_store_nprops, withCells_store_prop, withCells_update, withCells_propStored]
  simp

theorem trackProp_withCells (f : NodeFrame) (cells : FrameCells) (i : ℕ) :
    trackProp m (f.withCells cells i) dtp =
      (trackProp m { f with nprops := cells (i, FrameField.nprops) } dtp).map
        (·.withCells cells i) := by
  rw [trackProp, trackProp]
  cases strcmp m dtp.propName (cstr "compatible") with
  | error e => rfl
  | ok r =>
      rw [ok_bind, ok_bind]
      split
      · rfl
      cases strcmp m dtp.propName (cstr "device_type") with
      | error e => rfl
      | ok r =>
          rw [ok_bind, ok_bind]
          split
          · rfl
          · rfl

/-- A property that is stored, with what is remembered of it. -/
theorem realizes_storePropProg {track : ℕ → Exec NodeFrame}
    (remember : NodeFrame → Exec NodeFrame) {f : NodeFrame} (htop : pf.top < maxNodeDepth)
    (htrack : ∀ cells, remember (f.withCells cells pf.top) =
      (track (cells (pf.top, FrameField.nprops))).map (·.withCells cells pf.top)) :
    Realizes (storePropProg track pf dtp) cells ParsingFrame.withCells (do
      let f ← (f.withCells cells pf.top).storeProp dtp
      let f ← remember f
      let pf ← (pf.withCells cells).setCurrent { f with nprops := f.nprops + 1 }
      kassert (f.nprops + 1 < maxPropsPerNode) "postcond\n"
      return pf) := by
  have hstore : (f.withCells cells pf.top).storeProp dtp =
      inBounds (cells (pf.top, FrameField.nprops)) maxPropsPerNode >>= fun _ =>
        .ok (f.withCells (Function.update cells
          (pf.top, FrameField.prop (cells (pf.top, FrameField.nprops)))
          (⟨dtp.propName, dtp.propValue, dtp.propLen⟩ : PropFrame)) pf.top) := by
    rw [NodeFrame.storeProp, withCells_propStored]
    rfl
  obtain ⟨n, hn⟩ : ∃ n, n = cells (pf.top, FrameField.nprops) := ⟨_, rfl⟩
  rw [storePropProg, hstore, bind_assoc]
  refine realizes_get_bind ?_
  rw [← hn]
  refine (computes_lift _ _).realizes_bind fun _ _ => realizes_set_bind ?_
  rw [ok_bind, htrack, Function.update_of_ne (by simp), ← hn]
  refine realizes_lift_bind fun f' _ => ?_
  have hcells : (f'.withCells (Function.update cells (pf.top, FrameField.prop n)
      (⟨dtp.propName, dtp.propValue, dtp.propLen⟩ : PropFrame)) pf.top).nprops = n := by
    rw [withCells_propStored]
    exact hn.symm
  simp only [hcells]
  have htop' : (pf.withCells cells).top < maxNodeDepth := htop
  rw [ParsingFrame.setCurrent, ParsingFrame.setCurrent, inBounds_of htop, inBounds_of htop']
  refine realizes_set_bind ((computes_lift _ _).realizes_bind fun _ _ => ?_)
  rw [Realizes, run_pure]
  exact congrArg (fun frames => Except.ok (ParsingFrame.mk frames pf.top))
    (withCells_storedProp pf.nodeFrame cells pf.top f' n _ (n + 1)).symm

/-- `Prop` of the first pass. -/
theorem realizes_phandlePropProg :
    Realizes (phandlePropProg m pf dtp) cells ParsingFrame.withCells
      (phandleProp m (pf.withCells cells) dtp) := by
  rw [phandlePropProg, phandleProp, current_withCells]
  refine realizes_lift_bind fun f hf => realizes_get_bind ?_
  obtain ⟨htop, -⟩ := current_eq_ok.1 hf
  refine (computes_lift _ _).realizes_bind fun b _ => ?_
  cases b with
  | true => exact realizes_pure _ _
  | false =>
      exact realizes_storePropProg (fun f => .ok f) htop fun _ => rfl

theorem realizes_setCurrent (f : NodeFrame) :
    Realizes (liftM (pf.setCurrent f)) cells ParsingFrame.withCells
      ((pf.withCells cells).setCurrent (f.withCells cells pf.top)) := by
  rw [setCurrent_withCells]
  exact realizes_lift _ _

/-- `Prop` of the second pass. -/
theorem realizes_fullPropProg :
    Realizes (fullPropProg m pf dtp) cells ParsingFrame.withCells
      (fullProp m (pf.withCells cells) dtp) := by
  rw [fullPropProg, fullProp, current_withCells]
  refine realizes_lift_bind fun f hf => realizes_get_bind ?_
  obtain ⟨htop, -⟩ := current_eq_ok.1 hf
  refine (computes_lift _ _).realizes_bind fun b _ => ?_
  cases b with
  | true => exact realizes_pure _ _
  | false =>
      refine (computes_lift _ _).realizes_bind fun r _ => ?_
      by_cases hr : r = 0
      · rw [if_pos hr, if_pos hr]
        refine (computes_lift _ _).realizes_bind fun v _ => ?_
        exact realizes_setCurrent { f with ownCells := { f.ownCells with address := v } }
      rw [if_neg hr, if_neg hr]
      refine (computes_lift _ _).realizes_bind fun r _ => ?_
      by_cases hr : r = 0
      · rw [if_pos hr, if_pos hr]
        refine (computes_lift _ _).realizes_bind fun v _ => ?_
        exact realizes_setCurrent { f with ownCells := { f.ownCells with size := v } }
      rw [if_neg hr, if_neg hr]
      refine (computes_lift _ _).realizes_bind fun r _ => ?_
      by_cases hr : r = 0
      · rw [if_pos hr, if_pos hr]
        refine (computes_lift _ _).realizes_bind fun v _ => ?_
        exact realizes_setCurrent { f with ownCells := { f.ownCells with interruptParent := v } }
      rw [if_neg hr, if_neg hr, fullStoreProp]
      exact realizes_storePropProg (trackProp m · dtp) htop fun cells =>
        trackProp_withCells f cells pf.top

/-- A pass in between tokens, with its cells put into the frames. -/
def passWithCells (st : ParsingFrame × σ) (cells : FrameCells) : ParsingFrame × σ :=
  (st.1.withCells cells, st.2)

theorem pop_withCells (pf : ParsingFrame) (cells : FrameCells) :
    (pf.withCells cells).pop = pf.pop.withCells cells := by
  rw [ParsingFrame.pop, ParsingFrame.pop, apply_ite (ParsingFrame.withCells · cells)]
  rfl

/-- **The first pass**: its program does what it does. -/
theorem realizes_phandleStepProg (st : ParsingFrame × PhandleTable) (dtp : Parser)
    (cells : FrameCells) :
    Realizes (phandleStepProg m st dtp) cells passWithCells
      (phandleStep m (passWithCells st cells) dtp) := by
  obtain ⟨pf, table⟩ := st
  rw [phandleStepProg, phandleStep, passWithCells]
  cases dtp.current with
  | beginNode =>
      exact (realizes_beginNodeProg phandleEnter_withCells).bind fun _ _ _ => realizes_pure _ _
  | endNode =>
      simp only
      rw [current_withCells]
      refine realizes_lift_bind fun f hf => ?_
      obtain ⟨-, rfl⟩ := current_eq_ok.1 hf
      refine (computes_ownProps pf.nodeFrame (fun _ _ => rfl) _).realizes_bind fun mapping _ => ?_
      by_cases hphandle : mapping.phandle ≠ 0
      · simp only [if_pos hphandle]
        refine (computes_lift _ _).realizes_bind fun table _ => ?_
        rw [pop_withCells]
        exact realizes_pure _ _
      · simp only [if_neg hphandle]
        rw [pop_withCells]
        exact realizes_pure _ _
  | prop => exact realizes_phandlePropProg.bind fun _ _ _ => realizes_pure _ _
  | nop | fdtEnd => exact realizes_pure _ _

theorem computes_propIdxProg (frames : ℕ → NodeFrame) {node : ℕ} (idx : ℤ) :
    Computes (propIdxProg node idx) cells ((withCells frames cells node).propIdx idx) := by
  rw [propIdxProg, NodeFrame.propIdx]
  split
  · exact computes_pure _ _
  · exact (computes_propAtProg frames _).bind fun _ _ => computes_pure _ _

theorem computes_dispatchEntryProg {onNode : σ → HandlerCall → FrameProgram σ}
    {onNode' : σ → HandlerCall → Exec σ}
    (hon : ∀ s c, Computes (onNode s c) cells (onNode' s (c.withCells cells)))
    (cp dp : Option PropFrame) (s : σ) (handler : NodeHandler) :
    Computes (dispatchEntryProg m onNode pf cp dp s handler) cells
      (dispatchEntry m onNode' (pf.withCells cells) cp dp s handler) := by
  rw [dispatchEntryProg, dispatchEntry]
  cases handlerMatch cp dp handler.matchKind with
  | none => exact computes_pure _ _
  | some prop =>
      refine (computes_lift _ _).bind fun b _ => ?_
      split
      · exact hon s _
      · exact computes_pure _ _

/-- **The second pass**: its program does what it does, if those of the handlers do. -/
theorem realizes_fullStepProg {onNode : σ → HandlerCall → FrameProgram σ}
    {onNode' : σ → HandlerCall → Exec σ}
    (hon : ∀ s c cells, Computes (onNode s c) cells (onNode' s (c.withCells cells)))
    (st : ParsingFrame × σ) (dtp : Parser) (cells : FrameCells) :
    Realizes (fullStepProg m onNode st dtp) cells passWithCells
      (fullStep m onNode' (passWithCells st cells) dtp) := by
  obtain ⟨pf, s⟩ := st
  rw [fullStepProg, fullStep, passWithCells]
  cases dtp.current with
  | beginNode =>
      exact (realizes_beginNodeProg fullEnter_withCells).bind fun _ _ _ => realizes_pure _ _
  | endNode =>
      simp only
      rw [current_withCells]
      refine realizes_lift_bind fun f hf => ?_
      obtain ⟨-, rfl⟩ := current_eq_ok.1 hf
      refine (computes_propIdxProg pf.nodeFrame _).realizes_bind fun cp _ => ?_
      refine (computes_propIdxProg pf.nodeFrame _).realizes_bind fun dp _ => ?_
      refine (computes_foldlM (computes_dispatchEntryProg (hon · · cells) cp dp) s).realizes_bind
        fun s' _ => ?_
      rw [pop_withCells]
      exact realizes_pure _ _
  | prop => exact realizes_fullPropProg.bind fun _ _ _ => realizes_pure _ _
  | nop | fdtEnd => exact realizes_pure _ _

/-- The second pass, with the handlers of the table. -/
theorem realizes_fullStepProg_onNode (fuel : ℕ) (regs : ℕ → RegPair) (table : PhandleTable)
    (st : ParsingFrame × Platform) (dtp : Parser) (cells : FrameCells) :
    Realizes (fullStepProg m (onNodeProg m table fuel regs) st dtp) cells passWithCells
      (fullStep m (Platform.onNode m fuel regs table) (passWithCells st cells) dtp) :=
  realizes_fullStepProg (computes_onNodeProg fuel regs) st dtp cells

/-! What a token makes a pass read and change is the trace of its program. -/

/-- **The footprint of a token in the first pass**: where its loads are covered, the end depends
only on the members that are there before, and only those change that it stores into. -/
theorem phandleStep_footprint {st : ParsingFrame × PhandleTable} {other : FrameCells}
    {w : List (ℕ × FrameField)} (hcovered : Covered w ((phandleStepProg m st dtp).trace cells))
    (hagree : ∀ r ∈ w, cells r = other r) :
    (∀ e, phandleStep m (passWithCells st cells) dtp = .error e →
        phandleStep m (passWithCells st other) dtp = .error e) ∧
      ∀ st', phandleStep m (passWithCells st cells) dtp = .ok st' → ∃ next cells' other',
        st' = passWithCells next cells' ∧
        phandleStep m (passWithCells st other) dtp = .ok (passWithCells next other') ∧
        (∀ r ∈ w ++ stored ((phandleStepProg m st dtp).trace cells), cells' r = other' r) ∧
        ∀ r ∉ stored ((phandleStepProg m st dtp).trace cells),
          cells' r = cells r ∧ other' r = other r :=
  (realizes_phandleStepProg st dtp cells).footprint (realizes_phandleStepProg st dtp other)
    hcovered hagree

/-- **The footprint of a token in the second pass**, with all handlers that it calls. -/
theorem fullStep_footprint {fuel : ℕ} {table : PhandleTable} {regs : ℕ → RegPair}
    {st : ParsingFrame × Platform} {other : FrameCells} {w : List (ℕ × FrameField)}
    (hcovered : Covered w
      ((fullStepProg m (onNodeProg m table fuel regs) st dtp).trace cells))
    (hagree : ∀ r ∈ w, cells r = other r) :
    (∀ e, fullStep m (Platform.onNode m fuel regs table) (passWithCells st cells) dtp = .error e →
        fullStep m (Platform.onNode m fuel regs table) (passWithCells st other) dtp = .error e) ∧
      ∀ st', fullStep m (Platform.onNode m fuel regs table) (passWithCells st cells) dtp = .ok st' →
        ∃ next cells' other', st' = passWithCells next cells' ∧
        fullStep m (Platform.onNode m fuel regs table) (passWithCells st other) dtp =
          .ok (passWithCells next other') ∧
        (∀ r ∈ w ++ stored ((fullStepProg m (onNodeProg m table fuel regs) st dtp).trace cells),
          cells' r = other' r) ∧
        ∀ r ∉ stored ((fullStepProg m (onNodeProg m table fuel regs) st dtp).trace cells),
          cells' r = cells r ∧ other' r = other r :=
  (realizes_fullStepProg_onNode fuel regs table st dtp cells).footprint
    (realizes_fullStepProg_onNode fuel regs table st dtp other) hcovered hagree

end Ties

end Passes

end Floss
