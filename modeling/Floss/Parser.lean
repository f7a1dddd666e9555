import Floss.ByteMem

/-!
# The Flattened Device Tree Parser

The model of `DeviceTree::Parser` (`src/DeviceTree.h`, `src/DeviceTree.cpp`): a
zero-allocation streaming parser over a flattened device tree blob. `Parser.init`
validates the header, `Parser.next` walks the structure block token by token, and the
accessors read the data of the current token out of the parser state.

Pointers are addresses into a byte memory, and `0` is the null pointer. The endless
`for` loop of `next` is cut into its turns: `Parser.nextTurn` is one turn, which either
returns or, after an `FDT_NOP`, goes round again, and `Parser.nextLoop` is the loop. Its
iteration bound is the number of 32-bit words left in the block; running out of it is a
fault of its own, which `Floss.ParserSafety` shows never happens.

## Main definitions

* `Parser.init`, `HeaderAt`, `Header.Consistent`: what the header check accepts;
  `init_eq_ok_iff` characterises acceptance by the fields of the header;
* `Parser.next`: the token scanner;
* `Parser.nexts`: the parser states after each of a number of `next` calls.
-/

namespace Floss

/-- The null pointer. -/
def nullptr : ℕ := 0

/-- Structure block tokens. -/
inductive Token
  | beginNode
  | endNode
  | prop
  | nop
  | fdtEnd
  deriving DecidableEq, Repr

/-- The token with a given 32-bit value; `none` for every value that is not a token. -/
def Token.ofRaw : ℕ → Option Token
  | 1 => some .beginNode
  | 2 => some .endNode
  | 3 => some .prop
  | 4 => some .nop
  | 9 => some .fdtEnd
  | _ => none

/-- The outcome of validating a blob. -/
inductive Status
  | ok
  | badMagic
  | unsupportedVersion
  | malformed
  deriving DecidableEq, Repr

/-- The header fields of a blob, in host byte order. -/
structure Header where
  magic : ℕ
  totalsize : ℕ
  offDtStruct : ℕ
  offDtStrings : ℕ
  offMemRsvmap : ℕ
  version : ℕ
  sizeDtStrings : ℕ
  sizeDtStruct : ℕ
  deriving DecidableEq, Repr

/-- The parser state. -/
structure Parser where
  header : ℕ := nullptr
  blob : ℕ := nullptr
  blobEnd : ℕ := nullptr
  /-- start of the structure block -/
  struct : ℕ := nullptr
  /-- end of the structure block -/
  structEnd : ℕ := nullptr
  /-- start of the strings block -/
  strings : ℕ := nullptr
  stringsSize : ℕ := 0
  /-- next token position -/
  pos : ℕ := nullptr
  token : Token := .fdtEnd
  nodeNamePtr : ℕ := nullptr
  propNamePtr : ℕ := nullptr
  propValuePtr : ℕ := nullptr
  propBytes : ℕ := 0
  openNodes : ℕ := 0
  valid : Bool := false
  deriving DecidableEq, Repr

def fdtMagic : ℕ := 0xD00DFEED

def fdtSupportedVersion : ℕ := 17

/-- Advance a pointer to the next 4-byte boundary. -/
def align4 (p : ℕ) : ℕ :=
  let m := p &&& 3
  p + (if m ≠ 0 then 4 - m else 0)

namespace Parser

/-- Validate the blob at `fdt` and prepare for walking. The offsets of the header fields
are those of `FDTHeader`; the sums are taken in 64 bits, so they do not wrap. -/
def init (p : Parser) (m : Mem) (fdt : ℕ) : Exec (Status × Parser) := do
  let p := { p with valid := false }
  if fdt = nullptr then
    return (.malformed, p)
  let p := { p with header := fdt, blob := fdt }
  if (← be32 m p.header) ≠ fdtMagic then
    return (.badMagic, p)
  if (← be32 m (p.header + 20)) < fdtSupportedVersion then
    return (.unsupportedVersion, p)
  let totalsize ← be32 m (p.header + 4)
  let offStruct ← be32 m (p.header + 8)
  let offStrings ← be32 m (p.header + 12)
  let offRsvmap ← be32 m (p.header + 16)
  let sizeStruct ← be32 m (p.header + 36)
  let sizeStrings ← be32 m (p.header + 32)
  -- Every block must fit entirely within the blob.
  if offStruct + sizeStruct > totalsize ∨ offStrings + sizeStrings > totalsize ∨
      offRsvmap + 16 > totalsize then
    return (.malformed, p)
  return (.ok,
    { p with
      blobEnd := p.blob + totalsize
      struct := p.blob + offStruct
      structEnd := p.blob + offStruct + sizeStruct
      strings := p.blob + offStrings
      stringsSize := sizeStrings
      pos := p.blob + offStruct
      token := .fdtEnd
      openNodes := 0
      nodeNamePtr := nullptr
      propNamePtr := nullptr
      propValuePtr := nullptr
      propBytes := 0
      valid := true })

/-- The total size in the header. -/
def totalsize (p : Parser) (m : Mem) : Exec ℕ :=
  if p.header ≠ nullptr then be32 m (p.header + 4) else .ok 0

/-- Entry `index` of the memory reservation block: its address and size, or nothing when
there is no such entry or it is the terminating one. The product is a 32-bit one. -/
def reserveEntry (p : Parser) (m : Mem) (index : ℕ) : Exec (Option (ℕ × ℕ)) := do
  if ¬ p.valid then
    return none
  let q := p.blob + (← be32 m (p.header + 16)) + 16 * index % 2 ^ 32
  if q + 16 > p.blobEnd then
    return none
  let address ← be64 m q
  let size ← be64 m (q + 8)
  if address ≠ 0 ∨ size ≠ 0 then
    return some (address, size)
  else
    return none

/-- The exit taken whenever the scanner gives up or is done: the cursor goes to the end
of the structure block. -/
def finish (p : Parser) : Parser :=
  { p with token := .fdtEnd, pos := p.structEnd }

/-- The scan for the NUL terminator of a node name; `left` bytes remain before the end
of the structure block. -/
def scanName (m : Mem) : (left scan : ℕ) → Exec ℕ
  | 0, scan => .ok scan
  | left + 1, scan => do
      if (← m.load scan) ≠ 0 then
        scanName m left (scan + 1)
      else
        return scan

/-- What a turn of the token loop does: return from `next`, or go round again. -/
inductive Turn
  | ret (p : Parser)
  | again (p : Parser)
  deriving DecidableEq, Repr

/-- One turn of the token loop. -/
def nextTurn (p : Parser) (m : Mem) : Exec Turn := do
  if p.pos + 4 > p.structEnd then
    return .ret p.finish
  let raw ← be32 m p.pos
  let p := { p with pos := p.pos + 4 }
  match Token.ofRaw raw with
  | some .beginNode => do
      let name := p.pos
      let scan ← scanName m (p.structEnd - name) name
      if scan ≥ p.structEnd then
        -- truncated node name
        return .ret p.finish
      return .ret { p with
        pos := align4 (scan + 1)
        nodeNamePtr := name
        openNodes := (p.openNodes + 1) % 2 ^ 32
        token := .beginNode }
  | some .endNode =>
      return .ret { p with
        openNodes := if p.openNodes > 0 then p.openNodes - 1 else p.openNodes
        token := .endNode }
  | some .prop => do
      if p.pos + 8 > p.structEnd then
        return .ret p.finish
      let len ← be32 m p.pos
      let nameoff ← be32 m (p.pos + 4)
      let p := { p with pos := p.pos + 8 }
      let value := p.pos
      if p.pos + len > p.structEnd then
        return .ret p.finish
      return .ret { p with
        pos := align4 (value + len)
        propBytes := len
        propValuePtr := value
        propNamePtr := if nameoff < p.stringsSize then p.strings + nameoff else nullptr
        token := .prop }
  | some .nop => return .again p
  | some .fdtEnd => return .ret p.finish
  -- unknown token value: stop parsing
  | none => return .ret p.finish

/-- The token loop. -/
def nextLoop (m : Mem) : (fuel : ℕ) → Parser → Exec Parser
  | 0, _ => .error .fuel
  | fuel + 1, p => do
      match ← p.nextTurn m with
      | .ret q => return q
      | .again q => nextLoop m fuel q

/-- Advance to the next token. The token returned is the `token` of the state reached;
it is `fdtEnd` once the structure block is exhausted. -/
def next (p : Parser) (m : Mem) : Exec Parser :=
  if ¬ p.valid ∨ p.pos ≥ p.structEnd then
    .ok { p with token := .fdtEnd }
  else
    nextLoop m ((p.structEnd - p.pos) / 4 + 1) p

/-- The token returned by the most recent `next` call. -/
def current (p : Parser) : Token := p.token

/-- `beginNode`: the node's unit name. -/
def nodeName (p : Parser) : ℕ :=
  if p.token = .beginNode then p.nodeNamePtr else nullptr

/-- `prop`: the property name, in the strings block. -/
def propName (p : Parser) : ℕ :=
  if p.token = .prop then p.propNamePtr else nullptr

/-- `prop`: the raw value bytes. -/
def propValue (p : Parser) : ℕ :=
  if p.token = .prop then p.propValuePtr else nullptr

/-- `prop`: the value length in bytes. -/
def propLen (p : Parser) : ℕ :=
  if p.token = .prop then p.propBytes else 0

/-- The number of open nodes. -/
def depth (p : Parser) : ℕ := p.openNodes

/-- The parser states after each of `n` successive `next` calls. -/
def nexts (m : Mem) : (n : ℕ) → Parser → Exec (List Parser)
  | 0, _ => .ok []
  | n + 1, p => do
      let q ← p.next m
      let qs ← nexts m n q
      return q :: qs

end Parser

/-! ### What the header check accepts -/

/-- The header of the blob at `fdt` reads as `h`. -/
structure HeaderAt (m : Mem) (fdt : ℕ) (h : Header) : Prop where
  magic : be32 m fdt = .ok h.magic
  totalsize : be32 m (fdt + 4) = .ok h.totalsize
  offDtStruct : be32 m (fdt + 8) = .ok h.offDtStruct
  offDtStrings : be32 m (fdt + 12) = .ok h.offDtStrings
  offMemRsvmap : be32 m (fdt + 16) = .ok h.offMemRsvmap
  version : be32 m (fdt + 20) = .ok h.version
  sizeDtStrings : be32 m (fdt + 32) = .ok h.sizeDtStrings
  sizeDtStruct : be32 m (fdt + 36) = .ok h.sizeDtStruct

/-- The header fields are consistent: known format, every block inside the blob. -/
structure Header.Consistent (h : Header) : Prop where
  magic : h.magic = fdtMagic
  version : fdtSupportedVersion ≤ h.version
  struct : h.offDtStruct + h.sizeDtStruct ≤ h.totalsize
  strings : h.offDtStrings + h.sizeDtStrings ≤ h.totalsize
  rsvmap : h.offMemRsvmap + 16 ≤ h.totalsize

/-- The state an accepted blob leaves the parser in. -/
def Parser.start (fdt : ℕ) (h : Header) : Parser where
  header := fdt
  blob := fdt
  blobEnd := fdt + h.totalsize
  struct := fdt + h.offDtStruct
  structEnd := fdt + h.offDtStruct + h.sizeDtStruct
  strings := fdt + h.offDtStrings
  stringsSize := h.sizeDtStrings
  pos := fdt + h.offDtStruct
  valid := true

/-- **Acceptance.** `init` returns `ok` exactly on the blobs, other than the null
pointer, whose header is readable and consistent; it then stands at the start of the
structure block. -/
theorem init_eq_ok_iff {p q : Parser} {m : Mem} {fdt : ℕ} :
    p.init m fdt = .ok (.ok, q) ↔
      fdt ≠ nullptr ∧ ∃ h, HeaderAt m fdt h ∧ h.Consistent ∧ q = Parser.start fdt h := by
  constructor
  · intro hinit
    unfold Parser.init at hinit
    split_ifs at hinit with h0
    · simp at hinit
    simp only [bind_eq_ok] at hinit
    obtain ⟨magic, hmagic, hinit⟩ := hinit
    split_ifs at hinit with h1
    · simp at hinit
    simp only [bind_eq_ok] at hinit
    obtain ⟨version, hversion, hinit⟩ := hinit
    split_ifs at hinit with h2
    · simp at hinit
    simp only [bind_eq_ok] at hinit
    obtain ⟨ts, hts, os, hos, og, hog, om, hom, ss, hss, sg, hsg, hinit⟩ := hinit
    split_ifs at hinit with h3
    · simp at hinit
    simp only [pure_eq_ok, Except.ok.injEq, Prod.mk.injEq, true_and] at hinit
    refine ⟨h0, ⟨magic, ts, os, og, om, version, sg, ss⟩,
      ⟨hmagic, hts, hos, hog, hom, hversion, hsg, hss⟩, ?_, hinit.symm⟩
    constructor <;> simp only <;> omega
  · rintro ⟨h0, h, hh, hc, rfl⟩
    have hfit : ¬ (h.offDtStruct + h.sizeDtStruct > h.totalsize ∨
        h.offDtStrings + h.sizeDtStrings > h.totalsize ∨
        h.offMemRsvmap + 16 > h.totalsize) := by
      have := hc.struct
      have := hc.strings
      have := hc.rsvmap
      omega
    have hv : ¬ h.version < fdtSupportedVersion := not_lt.mpr hc.version
    simp only [Parser.init, if_neg h0, hh.magic, hh.version, hh.totalsize, hh.offDtStruct,
      hh.offDtStrings, hh.offMemRsvmap, hh.sizeDtStruct, hh.sizeDtStrings, ok_bind,
      hc.magic, ne_eq, not_true_eq_false, if_false, if_neg hv, if_neg hfit]
    rfl

/-- An accepted blob starts the parser. -/
theorem init_start {m : Mem} {fdt : ℕ} {h : Header} (hfdt : fdt ≠ nullptr)
    (hh : HeaderAt m fdt h) (hc : h.Consistent) :
    Parser.init {} m fdt = .ok (.ok, .start fdt h) :=
  init_eq_ok_iff.2 ⟨hfdt, h, hh, hc, rfl⟩

end Floss
