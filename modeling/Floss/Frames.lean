import Floss.CString
import Floss.ParserSafety

/-!
# The Two Passes over the Device Tree

The model of `DeviceTree::parse_frames` and what it calls (`src/DeviceTree.cpp`): the
frame stack with one `NodeFrame` per depth, the handler table and its dispatch, and the
two passes. The first pass (`parseFramesPhandle`) fills the phandle table, the second
(`parseFramesFull`) calls a handler for every matching node.

* Frames are slots of a stack of fixed size, reused by every node of the same depth.
  Fields without an initialiser hold whatever was in memory before, which is a parameter
  (`garbage`). The frame pointer `_parent` is the index of a slot.
* Handlers are a parameter too: `onNode s call` is what the handler of `call` does to the
  rest of the kernel, and it may stop the run. A `HandlerCall` is what a handler gets to
  see: its table entry, the stack and the slot of the node.
* `walkTokens` is the `while (dtp.next() != Token::End)` loop that both passes share.

`parseFramesCalls` is the second pass with handlers that record the calls, token by
token; `parseFramesFull_of_calls` says that every other choice of handlers makes exactly
these calls, in this order.
-/

namespace Floss

def maxPropsPerNode : ℕ := 30

def maxNodeDepth : ℕ := 8

def phandleNodeMappingCapacity : ℕ := 300

/-- A property as the parser handed it out: pointers to its name and value. -/
structure PropFrame where
  name : ℕ
  value : ℕ
  len : ℕ
  deriving DecidableEq, Repr

/-- The values that propagate from a node to the nodes below it. -/
structure NodeCells where
  address : ℕ := 2
  size : ℕ := 1
  /-- a phandle -/
  interruptParent : ℕ := 0
  deriving DecidableEq, Repr

structure NodeFrame where
  name : ℕ
  parentCells : NodeCells := {}
  ownCells : NodeCells := {}
  nprops : ℕ
  compatiblePropIdx : ℤ := -1
  deviceTypePropIdx : ℤ := -1
  props : ℕ → PropFrame
  parent : Option ℕ := none

/-- Frames in memory that was all zero before. -/
def zeroedFrames : ℕ → NodeFrame :=
  fun _ => { name := nullptr, nprops := 0, props := fun _ => ⟨nullptr, nullptr, 0⟩ }

structure ParsingFrame where
  nodeFrame : ℕ → NodeFrame
  /-- the current position -/
  top : ℕ

structure NodeMapping where
  phandle : ℕ := 0
  interruptCells : ℕ := 0
  clockFrequency : ℕ := 0
  /-- phandle of the parent clock -/
  parentClock : ℕ := 0
  deriving DecidableEq, Repr

/-- The phandle table: `num` entries are in use. -/
structure PhandleTable where
  num : ℕ := 0
  mapping : ℕ → NodeMapping := fun _ => {}

inductive MatchKind
  | compatible
  | deviceType
  deriving DecidableEq, Repr

/-- The functions that handle nodes. -/
inductive OnNode
  | psciDtParse
  | uartDtParse
  | memoryDtParse
  | cpuDtParse
  | timerDtParse
  | gicDtParseV2
  | gicDtParseV3
  deriving DecidableEq, Repr

structure NodeHandler where
  matchString : List UInt8
  matchKind : MatchKind
  onNode : OnNode
  deriving DecidableEq, Repr

def nodeHandlers : List NodeHandler := [
  ⟨cstr "arm,psci-1.0", .compatible, .psciDtParse⟩,
  ⟨cstr "arm,pl011", .compatible, .uartDtParse⟩,
  ⟨cstr "memory", .deviceType, .memoryDtParse⟩,
  ⟨cstr "cpu", .deviceType, .cpuDtParse⟩,
  ⟨cstr "arm,armv8-timer", .compatible, .timerDtParse⟩,
  ⟨cstr "arm,gic-400", .compatible, .gicDtParseV2⟩,
  ⟨cstr "arm,cortex-a15-gic", .compatible, .gicDtParseV2⟩,
  ⟨cstr "arm,gic-v3", .compatible, .gicDtParseV3⟩]

/-- What a handler is called with: its table entry, the frame stack and the slot of the
node. -/
structure HandlerCall where
  handler : NodeHandler
  frames : ℕ → NodeFrame
  node : ℕ

/-- The frame the handler was called with. -/
def HandlerCall.frame (c : HandlerCall) : NodeFrame := c.frames c.node

/-! ### The phandle table -/

/-- The search for a phandle among the entries in use, from entry `i` on; `left` entries
remain. -/
def PhandleTable.find (t : PhandleTable) (phandle : ℕ) : (left i : ℕ) → Exec (Option NodeMapping)
  | 0, _ => .ok none
  | left + 1, i => do
      inBounds i phandleNodeMappingCapacity
      if (t.mapping i).phandle = phandle then
        return some (t.mapping i)
      else
        t.find phandle left (i + 1)

/-- The number of cells of an interrupt, as the interrupt parent has it. -/
def NodeCells.lookupInterruptCells (c : NodeCells) (t : PhandleTable) : Exec ℕ := do
  kassert (c.interruptParent ≠ 0) "precond\n"
  match ← t.find c.interruptParent t.num 0 with
  | some mapping => do
      kassert (mapping.interruptCells ≠ 0) "precond\n"
      return mapping.interruptCells
  | none => .error (.panic "phandle %x cannot be found")

/-! ### Frames -/

namespace NodeFrame

/-- The property in slot `i` of the frame. -/
def propAt (f : NodeFrame) (i : ℕ) : Exec PropFrame := do
  inBounds i maxPropsPerNode
  return f.props i

/-- The property a remembered index points to; a negative index stands for none. -/
def propIdx (f : NodeFrame) (idx : ℤ) : Exec (Option PropFrame) :=
  if idx < 0 then
    .ok none
  else do
    return some (← f.propAt idx.toNat)

def compatibleProp (f : NodeFrame) : Exec (Option PropFrame) :=
  f.propIdx f.compatiblePropIdx

def deviceTypeProp (f : NodeFrame) : Exec (Option PropFrame) :=
  f.propIdx f.deviceTypePropIdx

/-- Store a property in the current slot, without counting it. -/
def storeProp (f : NodeFrame) (dtp : Parser) : Exec NodeFrame := do
  inBounds f.nprops maxPropsPerNode
  return { f with
    props := Function.update f.props f.nprops ⟨dtp.propName, dtp.propValue, dtp.propLen⟩ }

end NodeFrame

namespace ParsingFrame

/-- A frame stack as it is when a pass begins: fields with an initialiser hold it, all
others hold what was in memory before. -/
def fresh (garbage : ℕ → NodeFrame) : ParsingFrame where
  nodeFrame i := { name := (garbage i).name, nprops := (garbage i).nprops,
                   props := (garbage i).props }
  top := 0

def current (pf : ParsingFrame) : Exec NodeFrame := do
  inBounds pf.top maxNodeDepth
  return pf.nodeFrame pf.top

/-- Overwrite the current frame. -/
def setCurrent (pf : ParsingFrame) (f : NodeFrame) : Exec ParsingFrame := do
  inBounds pf.top maxNodeDepth
  return { pf with nodeFrame := Function.update pf.nodeFrame pf.top f }

/-- Move to the slot of a subnode. -/
def push (pf : ParsingFrame) : Exec ParsingFrame := do
  let pf := { pf with top := pf.top + 1 }
  kassert (pf.top < maxNodeDepth) "postcond\n"
  return pf

/-- Move back to the slot of the parent. The root stays where it is. -/
def pop (pf : ParsingFrame) : ParsingFrame :=
  if pf.top > 0 then { pf with top := pf.top - 1 } else pf

end ParsingFrame

/-! ### Cells and registers -/

/-- Address and size cells together, in cells. -/
def NodeCells.total (c : NodeCells) : ℕ := (c.address + c.size) % 2 ^ 32

/-- Address and size cells together, in bytes. -/
def NodeCells.byteSize (c : NodeCells) : ℕ := c.total * 4 % 2 ^ 32

/-- A pair of `reg`. -/
structure RegPair where
  address : ℕ
  length : ℕ
  deriving DecidableEq, Repr

/-- Read one pair; a field of other than one or two cells is not read. -/
def readRegPair (m : Mem) (cells : NodeCells) (value : ℕ) : Exec RegPair := do
  let address ←
    if cells.address = 1 then be32 m value
    else if cells.address = 2 then be64 m value
    else .ok 0
  let lengthValue := value + cells.address * 4 % 2 ^ 32
  let length ←
    if cells.size = 1 then be32 m lengthValue
    else if cells.size = 2 then be64 m lengthValue
    else .ok 0
  return ⟨address, length⟩

/-! ### Dispatch -/

/-- `strlen(needle) == slen && strncmp(s, needle, slen) == 0`. -/
def equalsNeedle (m : Mem) (s slen : ℕ) (needle : List UInt8) : Exec Bool :=
  if strlen needle = slen then do
    return decide ((← strncmp m s (litMem needle) 0 slen) = 0)
  else
    .ok false

/-- `offset < len && value[offset] == '\0'`. -/
def nulAt (m : Mem) (value len offset : ℕ) : Exec Bool :=
  if offset < len then do
    return decide ((← m.load (value + offset)) = 0)
  else
    .ok false

/-- The loop of `compatible_list_contains`. Every turn moves `offset` by at least one. -/
def containsLoop (m : Mem) (value len : ℕ) (needle : List UInt8) :
    (fuel offset : ℕ) → Exec Bool
  | 0, offset => if offset < len then .error .fuel else .ok false
  | fuel + 1, offset =>
      if offset < len then do
        let s := value + offset
        let rest := len - offset
        let slen ← strnlen m s rest
        if ← equalsNeedle m s slen needle then
          return true
        let offset := offset + slen
        if ← nulAt m value len offset then
          containsLoop m value len needle fuel (offset + 1)
        else
          containsLoop m value len needle fuel offset
      else
        .ok false

/-- Whether any NUL-separated string in `value[0..len)` equals `needle`. -/
def compatibleListContains (m : Mem) (value len : ℕ) (needle : List UInt8) : Exec Bool :=
  containsLoop m value len needle len 0

section Passes

variable {σ : Type}

/-- The property a handler of the given kind is matched with. -/
def handlerMatch (compatibleProp deviceTypeProp : Option PropFrame) :
    MatchKind → Option PropFrame
  | .compatible => compatibleProp
  | .deviceType => deviceTypeProp

/-- One entry of the dispatch loop: call the handler if the property of its kind has its
match string. -/
def dispatchEntry (m : Mem) (onNode : σ → HandlerCall → Exec σ) (pf : ParsingFrame)
    (compatibleProp deviceTypeProp : Option PropFrame) (s : σ) (handler : NodeHandler) :
    Exec σ :=
  match handlerMatch compatibleProp deviceTypeProp handler.matchKind with
  | none => .ok s
  | some prop => do
      if ← compatibleListContains m prop.value prop.len handler.matchString then
        onNode s ⟨handler, pf.nodeFrame, pf.top⟩
      else
        return s

/-- Call the handlers of the current node. -/
def dispatchIfPropMatch (m : Mem) (onNode : σ → HandlerCall → Exec σ) (pf : ParsingFrame)
    (compatibleProp deviceTypeProp : Option PropFrame) (s : σ) : Exec σ :=
  nodeHandlers.foldlM (dispatchEntry m onNode pf compatibleProp deviceTypeProp) s

/-- `node_name[0] == '_' && node_name[1] == '_'`. -/
def startsWithUnderscores (m : Mem) (name : ℕ) : Exec Bool := do
  if (← m.load name) = 95 then
    return decide ((← m.load (name + 1)) = 95)
  else
    return false

/-- Nodes whose name starts with `__`, and `aliases`, are ignored. -/
def isIgnoredNode (m : Mem) (name : ℕ) : Exec Bool := do
  if name = nullptr then
    return false
  if ← startsWithUnderscores m name then
    return true
  return decide ((← strcmp m name (cstr "aliases")) = 0)

/-! ### The token loop -/

/-- The loop `while (dtp.next() != Token::End)` with loop body `body`. -/
def walkTokens (m : Mem) (body : σ → Parser → Exec σ) : (fuel : ℕ) → Parser → σ → Exec σ
  | 0, _, _ => .error .fuel
  | fuel + 1, dtp, s => do
      let dtp ← dtp.next m
      if dtp.current = .fdtEnd then
        return s
      let s ← body s dtp
      walkTokens m body fuel dtp s

/-- A pass: validate the blob, then walk its tokens. -/
def walkBlob (m : Mem) (fdt : ℕ) (body : σ → Parser → Exec σ) (s : σ) :
    Exec (Status × σ) := do
  let (initStatus, dtp) ← Parser.init {} m fdt
  if initStatus ≠ .ok then
    return (initStatus, s)
  let s ← walkTokens m body ((dtp.structEnd - dtp.pos) / 4 + 1) dtp s
  return (.ok, s)

/-! ### The first pass -/

/-- Record one property of a node that ends in its mapping. -/
def mapProp (m : Mem) (f : NodeFrame) (mapping : NodeMapping) (i : ℕ) : Exec NodeMapping := do
  let prop ← f.propAt i
  let value ← be32 m prop.value
  if (← strcmp m prop.name (cstr "phandle")) = 0 then
    return { mapping with phandle := value }
  if (← strcmp m prop.name (cstr "#interrupt-cells")) = 0 then
    return { mapping with interruptCells := value }
  if (← strcmp m prop.name (cstr "clock-frequency")) = 0 then
    return { mapping with clockFrequency := value }
  if (← strcmp m prop.name (cstr "clocks")) = 0 then
    return { mapping with parentClock := value }
  return mapping

/-- Append a mapping to the phandle table. -/
def PhandleTable.add (t : PhandleTable) (mapping : NodeMapping) : Exec PhandleTable := do
  inBounds t.num phandleNodeMappingCapacity
  let t := { num := t.num + 1, mapping := Function.update t.mapping t.num mapping }
  kassert (t.num < phandleNodeMappingCapacity) "postcond\n"
  return t

/-- First pass: enter the slot of a node that is not the root. -/
def phandleEnter (pf : ParsingFrame) : Exec ParsingFrame := do
  let parentCells := (← pf.current).ownCells
  let pf ← pf.push
  pf.setCurrent { (← pf.current) with parentCells := parentCells }

/-- First pass, `BeginNode`. -/
def phandleBeginNode (m : Mem) (pf : ParsingFrame) (dtp : Parser) : Exec ParsingFrame := do
  let notRoot ← strcmp m dtp.nodeName (cstr "")
  let pf ← if notRoot ≠ 0 then phandleEnter pf else .ok pf
  pf.setCurrent { (← pf.current) with name := dtp.nodeName, nprops := 0 }

/-- First pass, `Prop`. -/
def phandleProp (m : Mem) (pf : ParsingFrame) (dtp : Parser) : Exec ParsingFrame := do
  let f ← pf.current
  if ← isIgnoredNode m f.name then
    return pf
  let f ← f.storeProp dtp
  let pf ← pf.setCurrent { f with nprops := f.nprops + 1 }
  kassert (f.nprops + 1 < maxPropsPerNode) "postcond\n"
  return pf

/-- The loop body of the first pass. -/
def phandleStep (m : Mem) (st : ParsingFrame × PhandleTable) (dtp : Parser) :
    Exec (ParsingFrame × PhandleTable) :=
  let (pf, table) := st
  match dtp.current with
  | .beginNode => do
      return (← phandleBeginNode m pf dtp, table)
  | .endNode => do
      let f ← pf.current
      let mapping ← (List.range f.nprops).foldlM (mapProp m f) {}
      let table ← if mapping.phandle ≠ 0 then table.add mapping else pure table
      return (pf.pop, table)
  | .prop => do
      return (← phandleProp m pf dtp, table)
  | .nop | .fdtEnd => .ok (pf, table)

/-- The first pass: the phandle table, emptied and filled anew. -/
def parseFramesPhandle (m : Mem) (fdt : ℕ) (garbage : ℕ → NodeFrame) (table : PhandleTable) :
    Exec (Status × PhandleTable) := do
  let (status, _, filled) ← walkBlob m fdt (phandleStep m)
    (ParsingFrame.fresh garbage, { table with num := 0 })
  return (status, if status = .ok then filled else table)

/-! ### The second pass -/

/-- Second pass: enter the slot of a node that is not the root. -/
def fullEnter (pf : ParsingFrame) : Exec ParsingFrame := do
  let parentCells := (← pf.current).ownCells
  let pf ← pf.push
  let f ← pf.current
  pf.setCurrent { f with
    parentCells := parentCells
    parent := some (pf.top - 1)
    -- Inherit interrupt parent
    ownCells := { f.ownCells with interruptParent := parentCells.interruptParent } }

/-- Second pass, `BeginNode`. -/
def fullBeginNode (m : Mem) (pf : ParsingFrame) (dtp : Parser) : Exec ParsingFrame := do
  let notRoot ← strcmp m dtp.nodeName (cstr "")
  let pf ← if notRoot ≠ 0 then fullEnter pf else .ok pf
  pf.setCurrent { (← pf.current) with name := dtp.nodeName, nprops := 0 }

/-- Remember the current slot if its property is one that handlers are matched with. -/
def trackProp (m : Mem) (f : NodeFrame) (dtp : Parser) : Exec NodeFrame := do
  if (← strcmp m dtp.propName (cstr "compatible")) = 0 then
    return { f with compatiblePropIdx := f.nprops }
  else if (← strcmp m dtp.propName (cstr "device_type")) = 0 then
    return { f with deviceTypePropIdx := f.nprops }
  else
    return f

/-- Second pass, a property that is kept: store it in the current slot. -/
def fullStoreProp (m : Mem) (pf : ParsingFrame) (f : NodeFrame) (dtp : Parser) :
    Exec ParsingFrame := do
  let f ← f.storeProp dtp
  let f ← trackProp m f dtp
  let pf ← pf.setCurrent { f with nprops := f.nprops + 1 }
  kassert (f.nprops + 1 < maxPropsPerNode) "postcond\n"
  return pf

/-- Second pass, `Prop`. -/
def fullProp (m : Mem) (pf : ParsingFrame) (dtp : Parser) : Exec ParsingFrame := do
  let f ← pf.current
  if ← isIgnoredNode m f.name then
    return pf
  if (← strcmp m dtp.propName (cstr "#address-cells")) = 0 then
    let v ← be32 m dtp.propValue
    pf.setCurrent { f with ownCells := { f.ownCells with address := v } }
  else if (← strcmp m dtp.propName (cstr "#size-cells")) = 0 then
    let v ← be32 m dtp.propValue
    pf.setCurrent { f with ownCells := { f.ownCells with size := v } }
  else if (← strcmp m dtp.propName (cstr "interrupt-parent")) = 0 then
    let v ← be32 m dtp.propValue
    pf.setCurrent { f with ownCells := { f.ownCells with interruptParent := v } }
  else
    fullStoreProp m pf f dtp

/-- The loop body of the second pass. -/
def fullStep (m : Mem) (onNode : σ → HandlerCall → Exec σ) (st : ParsingFrame × σ)
    (dtp : Parser) : Exec (ParsingFrame × σ) :=
  let (pf, s) := st
  match dtp.current with
  | .beginNode => do
      return (← fullBeginNode m pf dtp, s)
  | .endNode => do
      let f ← pf.current
      let compatibleProp ← f.compatibleProp
      let deviceTypeProp ← f.deviceTypeProp
      let s ← dispatchIfPropMatch m onNode pf compatibleProp deviceTypeProp s
      return (pf.pop, s)
  | .prop => do
      return (← fullProp m pf dtp, s)
  | .nop | .fdtEnd => .ok (pf, s)

/-- The second pass. -/
def parseFramesFull (m : Mem) (fdt : ℕ) (garbage : ℕ → NodeFrame)
    (onNode : σ → HandlerCall → Exec σ) (s : σ) : Exec (Status × σ) := do
  let (status, _, s) ← walkBlob m fdt (fullStep m onNode) (ParsingFrame.fresh garbage, s)
  return (status, s)

/-- Both passes. Handlers of the second pass see the phandle table of the first. -/
def parseFrames (m : Mem) (fdt : ℕ) (garbage garbage' : ℕ → NodeFrame)
    (onNode : PhandleTable → σ → HandlerCall → Exec σ) (table : PhandleTable) (s : σ) :
    Exec (Status × PhandleTable × σ) := do
  let (status, table) ← parseFramesPhandle m fdt garbage table
  if status ≠ .ok then
    return (status, table, s)
  let (status, s) ← parseFramesFull m fdt garbage' (onNode table) s
  return (status, table, s)

end Passes

/-! ### The handler calls of the second pass -/

/-- The handler that only records that it was called. -/
def recordCall (log : List HandlerCall) (c : HandlerCall) : Exec (List HandlerCall) :=
  .ok (log ++ [c])

/-- The calls made by one turn of the second pass. -/
def callsStep (m : Mem) (pf : ParsingFrame) (dtp : Parser) :
    Exec (List HandlerCall × ParsingFrame) := do
  let (pf, log) ← fullStep m recordCall (pf, []) dtp
  return (log, pf)

/-- One turn of the second pass, with its calls appended to those of the turns before. -/
def callsBody (m : Mem) (st : ParsingFrame × List (List HandlerCall)) (dtp : Parser) :
    Exec (ParsingFrame × List (List HandlerCall)) := do
  let (log, pf) ← callsStep m st.1 dtp
  return (pf, st.2 ++ [log])

/-- The second pass with recording handlers: the calls it makes, token by token. -/
def parseFramesCalls (m : Mem) (fdt : ℕ) (garbage : ℕ → NodeFrame) :
    Exec (Status × List (List HandlerCall)) := do
  let (status, _, calls) ← walkBlob m fdt (callsBody m) (ParsingFrame.fresh garbage, [])
  return (status, calls)

end Floss
