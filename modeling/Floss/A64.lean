import Mathlib.Logic.Relation
import Mathlib.Tactic.IntervalCases
import Floss.WordMem

/-!
# An A64 Core

The part of the A64 instruction set that startup code and exception vectors are written in:
moves, system registers, a little arithmetic, branches, loads and stores of double words,
and `eret`. A `Core` has its registers, a stack pointer for each exception level, the
process state, system registers and memory.

A program is what `code` gives at an address. Where it gives nothing, execution has left
the program: a function written elsewhere runs there. Nothing is known of such functions
but what is assumed of `ext`, which says how the `n`th of them leaves the core; the
addresses at which they were entered are recorded (`Config.calls`).

* `step`, `Reaches`: one instruction, and runs;
* `After`: what holds after a sequence of instructions without branches; `inside_after` makes
  it a run;
* `reaches_rounds`: a loop, by an invariant that counts its rounds;
* `reaches_total`: of two runs from one configuration, one goes on from the other;
* `Quiet`: steps that write no memory and stay inside the program, with `quiet_all` for
  programs that do nothing else for ever;
* `PState.ofSpsr_spsr`: an exception saves the process state that `eret` gives back.
-/

namespace Floss

namespace A64

/-! ### Registers -/

/-- There are 31 registers, and a literal names one. -/
instance instNeZeroRegs : NeZero 31 := ⟨by norm_num⟩

/-- A register operand: `x0` to `x30`, or the zero register. -/
inductive Reg
  | x (n : Fin 31)
  | zr
  deriving DecidableEq, Repr

inductive SysReg
  | currentEl
  | mpidrEl1
  | vbarEl1
  | elrEl1
  | spsrEl1
  | hcrEl2
  | vbarEl2
  | elrEl2
  | spsrEl2
  deriving DecidableEq, Repr

/-- The lowest exception level at which a register can be accessed. -/
def SysReg.level : SysReg → ℕ
  | .currentEl | .mpidrEl1 | .vbarEl1 | .elrEl1 | .spsrEl1 => 1
  | .hcrEl2 | .vbarEl2 | .elrEl2 | .spsrEl2 => 2

/-- The process state: condition flags, interrupt masks, exception level and whether the
stack pointer is that of the level. -/
structure PState where
  n : Bool
  z : Bool
  c : Bool
  v : Bool
  daif : BitVec 4
  el : BitVec 2
  sp : Bool
  deriving DecidableEq, Repr

/-- A field of a system register. -/
def field {w : ℕ} (v : BitVec w) (i : ℕ) : BitVec 64 := v.setWidth 64 <<< i

/-- The process state as a saved program status register has it. -/
def PState.spsr (p : PState) : BitVec 64 :=
  field (.ofBool p.n) 31 ||| field (.ofBool p.z) 30 ||| field (.ofBool p.c) 29 |||
    field (.ofBool p.v) 28 ||| field p.daif 6 ||| field p.el 2 ||| field (.ofBool p.sp) 0

/-- The process state in a saved program status register. -/
def PState.ofSpsr (v : BitVec 64) : PState where
  n := v.getLsbD 31
  z := v.getLsbD 30
  c := v.getLsbD 29
  v := v.getLsbD 28
  daif := v.extractLsb' 6 4
  el := v.extractLsb' 2 2
  sp := v.getLsbD 0

/-- **Saving and restoring** the process state. -/
theorem PState.ofSpsr_spsr (p : PState) : PState.ofSpsr p.spsr = p := by
  obtain ⟨n, z, c, v, daif, el, sp⟩ := p
  simp only [PState.ofSpsr, PState.spsr, PState.mk.injEq]
  refine ⟨?_, ?_, ?_, ?_, ?_, ?_, ?_⟩
  · simp [field]
  · simp [field]
  · simp [field]
  · simp [field]
  · refine BitVec.eq_of_getLsbD_eq fun i hi => ?_
    interval_cases i <;> simp [field]
  · refine BitVec.eq_of_getLsbD_eq fun i hi => ?_
    interval_cases i <;> simp [field]
  · simp [field]

/-! ### Cores -/

/-- The state of a core. There is a stack pointer for each exception level. -/
structure Core where
  x : Fin 31 → BitVec 64
  spEl : BitVec 2 → BitVec 64
  pc : BitVec 64
  ps : PState
  sys : SysReg → BitVec 64
  mem : Bytes

namespace Core

variable (c : Core)

/-- Which stack pointer `sp` names. -/
def spIdx : BitVec 2 := if c.ps.sp then c.ps.el else 0

def sp : BitVec 64 := c.spEl c.spIdx

def setSp (v : BitVec 64) : Core := { c with spEl := Function.update c.spEl c.spIdx v }

/-- Read a register operand. -/
def reg : Reg → BitVec 64
  | .x n => c.x n
  | .zr => 0

/-- Write a register operand. -/
def setReg : Reg → BitVec 64 → Core
  | .x n, v => { c with x := Function.update c.x n v }
  | .zr, _ => c

/-- A system register; `CurrentEL` shows the exception level. -/
def readSys : SysReg → BitVec 64
  | .currentEl => field c.ps.el 2
  | r => c.sys r

def setSys (r : SysReg) (v : BitVec 64) : Core := { c with sys := Function.update c.sys r v }

/-- On to the next instruction. -/
def next : Core := { c with pc := c.pc + 4 }

def jump (pc : BitVec 64) : Core := { c with pc := pc }

/-- The flags after comparing `a` with `b`. -/
def compare (a b : BitVec 64) : Core :=
  { c with
    ps := { c.ps with
      n := (a - b).msb
      z := a == b
      c := decide (b.toNat ≤ a.toNat)
      v := (a.msb != b.msb) && (a.msb != (a - b).msb) } }

/-- Return to where an exception came from; not to a higher level. -/
def exceptionReturn (spsr elr : BitVec 64) : Option Core :=
  if (PState.ofSpsr spsr).el ≤ c.ps.el then
    some { c with ps := .ofSpsr spsr, pc := elr }
  else
    none

variable {c} (r : Reg) (v : BitVec 64)

@[simp] theorem pc_setReg : (c.setReg r v).pc = c.pc := by
  cases r <;> rfl

@[simp] theorem spEl_setReg : (c.setReg r v).spEl = c.spEl := by
  cases r <;> rfl

@[simp] theorem ps_setReg : (c.setReg r v).ps = c.ps := by
  cases r <;> rfl

@[simp] theorem sys_setReg : (c.setReg r v).sys = c.sys := by
  cases r <;> rfl

@[simp] theorem mem_setReg : (c.setReg r v).mem = c.mem := by
  cases r <;> rfl

@[simp] theorem x_jump (pc : BitVec 64) : (c.jump pc).x = c.x := rfl

@[simp] theorem x_next : c.next.x = c.x := rfl

@[simp] theorem x_setReg_self (n : Fin 31) : (c.setReg (.x n) v).x n = v := by
  simp [setReg]

theorem x_setReg_of_ne {m n : Fin 31} (h : m ≠ n) : (c.setReg (.x n) v).x m = c.x m := by
  simp [setReg, h]

@[simp] theorem sp_setSp : (c.setSp v).sp = v := by
  simp [sp, setSp, spIdx]

/-- A register that is set to what it is in `t`. -/
theorem x_setReg_reg (t : Core) (n : Fin 31) :
    (c.setReg r (t.reg r)).x n = if Reg.x n = r then t.x n else c.x n := by
  cases r with
  | zr => simp [setReg]
  | x m =>
    by_cases hn : n = m
    · subst hn
      rw [x_setReg_self, if_pos rfl, reg]
    · rw [x_setReg_of_ne _ hn, if_neg (by simpa using hn)]

end Core

/-! ### Instructions -/

/-- Instructions. Branch targets and literals are given as the addresses and values that
the assembler puts there. -/
inductive Instr
  | mov (d s : Reg)
  | movImm (d : Reg) (v : BitVec 64)
  | movSp (d : Reg)
  /-- `ldr d, =v` -/
  | ldrLit (d : Reg) (v : BitVec 64)
  | mrs (d : Reg) (r : SysReg)
  | msr (r : SysReg) (s : Reg)
  | andImm (d s : Reg) (v : BitVec 64)
  | orrImm (d s : Reg) (v : BitVec 64)
  | lslImm (d s : Reg) (n : ℕ)
  | lsrImm (d s : Reg) (n : ℕ)
  | addImm (d s : Reg) (v : BitVec 64)
  /-- `madd d, a, b, e` -/
  | madd (d a b e : Reg)
  /-- `add sp, a, b` -/
  | addSp (a b : Reg)
  | addSpImm (v : BitVec 64)
  | subSpImm (v : BitVec 64)
  | cmp (a b : Reg)
  | cmpImm (a : Reg) (v : BitVec 64)
  /-- `ldr d, [a]` -/
  | ldr (d a : Reg)
  /-- `str s, [a], #n` -/
  | strPost (s a : Reg) (n : BitVec 64)
  /-- `stp a, b, [sp, #off]` -/
  | stpSp (a b : Reg) (off : ℕ)
  /-- `ldp a, b, [sp, #off]` -/
  | ldpSp (a b : Reg) (off : ℕ)
  | b (target : BitVec 64)
  | bne (target : BitVec 64)
  | bhs (target : BitVec 64)
  | cbnz (a : Reg) (target : BitVec 64)
  | bl (target : BitVec 64)
  | blr (a : Reg)
  | ret
  | eret
  | isb
  | dsb
  | wfe
  deriving DecidableEq, Repr

/-- The link register. -/
def lr : Fin 31 := 30

/-- Execute an instruction. System registers of a higher exception level are undefined. -/
def exec : Instr → Core → Option Core
  | .mov d s, c => some (c.setReg d (c.reg s)).next
  | .movImm d v, c => some (c.setReg d v).next
  | .movSp d, c => some (c.setReg d c.sp).next
  | .ldrLit d v, c => some (c.setReg d v).next
  | .mrs d r, c => if r.level ≤ c.ps.el.toNat then some (c.setReg d (c.readSys r)).next else none
  | .msr r s, c => if r.level ≤ c.ps.el.toNat then some (c.setSys r (c.reg s)).next else none
  | .andImm d s v, c => some (c.setReg d (c.reg s &&& v)).next
  | .orrImm d s v, c => some (c.setReg d (c.reg s ||| v)).next
  | .lslImm d s n, c => some (c.setReg d (c.reg s <<< n)).next
  | .lsrImm d s n, c => some (c.setReg d (c.reg s >>> n)).next
  | .addImm d s v, c => some (c.setReg d (c.reg s + v)).next
  | .madd d a b e, c => some (c.setReg d (c.reg e + c.reg a * c.reg b)).next
  | .addSp a b, c => some (c.setSp (c.reg a + c.reg b)).next
  | .addSpImm v, c => some (c.setSp (c.sp + v)).next
  | .subSpImm v, c => some (c.setSp (c.sp - v)).next
  | .cmp a b, c => some (c.compare (c.reg a) (c.reg b)).next
  | .cmpImm a v, c => some (c.compare (c.reg a) v).next
  | .ldr d a, c => some (c.setReg d (load64 c.mem (c.reg a))).next
  | .strPost s a n, c =>
      let addr := c.reg a
      some (({ c with mem := store64 c.mem addr (c.reg s) } : Core).setReg a (addr + n)).next
  | .stpSp a b off, c =>
      let mem := store64 c.mem (c.sp + BitVec.ofNat 64 off) (c.reg a)
      some ({ c with mem := store64 mem (c.sp + BitVec.ofNat 64 (off + 8)) (c.reg b) } : Core).next
  | .ldpSp a b off, c =>
      let va := load64 c.mem (c.sp + BitVec.ofNat 64 off)
      let vb := load64 c.mem (c.sp + BitVec.ofNat 64 (off + 8))
      some ((c.setReg a va).setReg b vb).next
  | .b target, c => some (c.jump target)
  | .bne target, c => some (if c.ps.z then c.next else c.jump target)
  | .bhs target, c => some (if c.ps.c then c.jump target else c.next)
  | .cbnz a target, c => some (if c.reg a = 0 then c.next else c.jump target)
  | .bl target, c => some ((c.setReg (.x lr) (c.pc + 4)).jump target)
  | .blr a, c => some ((c.setReg (.x lr) (c.pc + 4)).jump (c.reg a))
  | .ret, c => some (c.jump (c.x lr))
  | .eret, c =>
      if c.ps.el = 1 then c.exceptionReturn (c.sys .spsrEl1) (c.sys .elrEl1)
      else if c.ps.el = 2 then c.exceptionReturn (c.sys .spsrEl2) (c.sys .elrEl2)
      else none
  | .isb, c => some c.next
  | .dsb, c => some c.next
  | .wfe, c => some c.next

/-- Instructions after which the next one is executed. -/
def Instr.falls : Instr → Bool
  | .b _ | .bne _ | .bhs _ | .cbnz _ _ | .bl _ | .blr _ | .ret | .eret => false
  | _ => true

/-- Instructions that write memory. -/
def Instr.stores : Instr → Bool
  | .strPost _ _ _ | .stpSp _ _ _ => true
  | _ => false

/-- Execute instructions one after the other. -/
def execs (is : List Instr) (c : Core) : Option Core := is.foldlM (fun c i => exec i c) c

theorem execs_cons (i : Instr) (is : List Instr) (c : Core) :
    execs (i :: is) c = (exec i c).bind (execs is) := rfl

/-- A program that lies at `base`, an instruction every four bytes. -/
def listing (base : BitVec 64) (is : List Instr) (pc : BitVec 64) : Option Instr :=
  if (pc - base).toNat % 4 = 0 then is[(pc - base).toNat / 4]? else none

/-- The instruction at an address of a listing. -/
theorem listing_at (base : BitVec 64) (is : List Instr) {k : ℕ} (hk : 4 * k < 2 ^ 64) :
    listing base is (base + BitVec.ofNat 64 (4 * k)) = is[k]? := by
  have hdiff : (base + BitVec.ofNat 64 (4 * k) - base).toNat = 4 * k := by
    rw [add_sub_cancel_left, BitVec.toNat_ofNat]
    omega
  rw [listing, hdiff, if_pos (by omega), Nat.mul_div_cancel_left k (by omega)]

theorem getElem?_of_block {prog is : List Instr} {k j : ℕ} {i : Instr} (hprog : is <+: prog.drop k)
    (hi : is[j]? = some i) : prog[k + j]? = some i := by
  obtain ⟨rest, hrest⟩ := hprog
  have hj : j < is.length := (List.getElem?_eq_some_iff.mp hi).1
  rw [← List.getElem?_drop, ← hrest, List.getElem?_append_left hj, hi]

/-- A part of a block. -/
theorem block_part {prog is js : List Instr} {k j : ℕ} (hprog : is <+: prog.drop k)
    (hjs : js <+: is.drop j) : js <+: prog.drop (k + j) := by
  rw [← List.drop_drop]
  exact hjs.trans (hprog.drop j)

/-- Instructions that stand in a listing from the `k`th place on. -/
theorem listing_block {base : BitVec 64} {prog is : List Instr} {k : ℕ}
    (hlen : 4 * prog.length < 2 ^ 64) (hprog : is <+: prog.drop k) {j : ℕ} {i : Instr}
    (hi : is[j]? = some i) :
    listing base prog (base + BitVec.ofNat 64 (4 * k) + BitVec.ofNat 64 (4 * j)) = some i := by
  have hplace : prog[k + j]? = some i := getElem?_of_block hprog hi
  have hk : k + j < prog.length := (List.getElem?_eq_some_iff.mp hplace).1
  rw [BitVec.add_assoc, ← BitVec.ofNat_add, ← Nat.mul_add, listing_at base prog (by omega), hplace]

theorem exec_pc_of_falls {i : Instr} {c d : Core} (hi : i.falls) (h : exec i c = some d) :
    d.pc = c.pc + 4 := by
  cases i with
  | b | bne | bhs | cbnz | bl | blr | ret | eret => exact absurd hi Bool.false_ne_true
  | mrs | msr =>
    simp only [exec, Option.ite_none_right_eq_some, Option.some.injEq] at h
    obtain ⟨-, rfl⟩ := h
    simp [Core.next, Core.setSys]
  | _ =>
    simp only [exec, Option.some.injEq] at h
    subst h
    simp [Core.next, Core.setSp, Core.compare]

theorem exec_mem_of_not_stores {i : Instr} {c d : Core} (hi : i.stores = false)
    (h : exec i c = some d) : d.mem = c.mem := by
  cases i with
  | strPost | stpSp => exact absurd hi.symm Bool.false_ne_true
  | mrs | msr =>
    simp only [exec, Option.ite_none_right_eq_some, Option.some.injEq] at h
    obtain ⟨-, rfl⟩ := h
    simp [Core.next, Core.setSys]
  | eret =>
    have hret : ∀ spsr elr, c.exceptionReturn spsr elr = some d → d.mem = c.mem := by
      intro spsr elr h
      rw [Core.exceptionReturn, Option.ite_none_right_eq_some, Option.some.injEq] at h
      exact h.2 ▸ rfl
    simp only [exec] at h
    split at h
    · exact hret _ _ h
    · exact hret _ _ (Option.ite_none_right_eq_some.mp h).2
  | bne | bhs | cbnz =>
    simp only [exec, Option.some.injEq] at h
    subst h
    split <;> rfl
  | _ =>
    simp only [exec, Option.some.injEq] at h
    subst h
    simp [Core.next, Core.setSp, Core.compare, Core.jump]

/-- The instructions are all defined, and `Q` holds after them. -/
def After (is : List Instr) (c : Core) (Q : Core → Prop) : Prop := ∃ d, execs is c = some d ∧ Q d

section After

variable {is : List Instr} {c d : Core} {Q : Core → Prop}

theorem after_nil (h : Q c) : After [] c Q := ⟨c, rfl, h⟩

theorem after_cons {i : Instr} (h : exec i c = some d) (hd : After is d Q) :
    After (i :: is) c Q := by
  obtain ⟨e, he, hQ⟩ := hd
  refine ⟨e, ?_, hQ⟩
  rw [execs_cons, h, Option.bind_some, he]

theorem after_append {js : List Instr} {R : Core → Prop} (h : After is c R)
    (hd : ∀ d, R d → After js d Q) : After (is ++ js) c Q := by
  obtain ⟨d, hrun, hR⟩ := h
  obtain ⟨e, hrun', hQ⟩ := hd d hR
  refine ⟨e, ?_, hQ⟩
  rw [execs, List.foldlM_append, ← execs, hrun]
  exact hrun'

theorem after_mrs {t : Reg} {r : SysReg} (h : r.level ≤ c.ps.el.toNat)
    (hd : After is (c.setReg t (c.readSys r)).next Q) : After (.mrs t r :: is) c Q :=
  after_cons (by rw [exec, if_pos h]) hd

theorem after_msr {t : Reg} {r : SysReg} (h : r.level ≤ c.ps.el.toNat)
    (hd : After is (c.setSys r (c.reg t)).next Q) : After (.msr r t :: is) c Q :=
  after_cons (by rw [exec, if_pos h]) hd

end After

/-- **What a block leaves alone**: it may change the registers of `R` and the flags. -/
structure Keeps (R : List (Fin 31)) (c d : Core) : Prop where
  x : ∀ n, n ∉ R → d.x n = c.x n
  spEl : d.spEl = c.spEl
  daif : d.ps.daif = c.ps.daif
  el : d.ps.el = c.ps.el
  sp : d.ps.sp = c.ps.sp
  sys : d.sys = c.sys
  mem : d.mem = c.mem

/-! ### Register frames -/

/-- Store pairs of registers one behind the other. -/
def stpAll : ℕ → List (Reg × Reg) → List Instr
  | _, [] => []
  | off, (a, b) :: rest => .stpSp a b off :: stpAll (off + 16) rest

/-- Load them. -/
def ldpAll : ℕ → List (Reg × Reg) → List Instr
  | _, [] => []
  | off, (a, b) :: rest => .ldpSp a b off :: ldpAll (off + 16) rest

/-- The registers of pairs, in the order of their slots. -/
def slots (pairs : List (Reg × Reg)) : List Reg := pairs.flatMap fun p => [p.1, p.2]

/-- A frame is stored in its slots. -/
theorem after_stpAll {pairs : List (Reg × Reg)} {is : List Instr} {k : ℕ} {c : Core}
    {Q : Core → Prop}
    (h : After is
      { c with
        mem := storeFrom c.mem c.sp k ((slots pairs).map c.reg)
        pc := c.pc + BitVec.ofNat 64 (4 * pairs.length) } Q) :
    After (stpAll (8 * k) pairs ++ is) c Q := by
  induction pairs generalizing k c with
  | nil => simpa [stpAll, slots, storeFrom] using h
  | cons p pairs ih =>
    obtain ⟨a, b⟩ := p
    refine after_cons rfl ?_
    rw [show 8 * k + 16 = 8 * (k + 2) by omega]
    refine ih ?_
    have hpc : c.pc + 4 + BitVec.ofNat 64 (4 * pairs.length) =
        c.pc + BitVec.ofNat 64 (4 * (pairs.length + 1)) := by
      rw [Nat.mul_succ, Nat.add_comm (4 * _), BitVec.ofNat_add, ← BitVec.add_assoc]
      rfl
    rw [List.length_cons, ← hpc] at h
    exact h

/-- **Loading a frame** gives its registers the values of `t`, if these are in the slots. -/
theorem after_ldpAll {pairs : List (Reg × Reg)} {is : List Instr} {k : ℕ} {c t : Core}
    {Q : Core → Prop}
    (hload : ∀ j r, (slots pairs)[j]? = some r →
      load64 c.mem (c.sp + BitVec.ofNat 64 (8 * (k + j))) = t.reg r)
    (h : ∀ d : Core, (∀ n, d.x n = if Reg.x n ∈ slots pairs then t.x n else c.x n) →
      d.spEl = c.spEl → d.ps = c.ps → d.sys = c.sys → d.mem = c.mem → After is d Q) :
    After (ldpAll (8 * k) pairs ++ is) c Q := by
  induction pairs generalizing k c with
  | nil => exact h c (fun n => by simp [slots]) rfl rfl rfl rfl
  | cons p pairs ih =>
    obtain ⟨a, b⟩ := p
    have ha : load64 c.mem (c.sp + BitVec.ofNat 64 (8 * k)) = t.reg a := hload 0 a rfl
    have hb : load64 c.mem (c.sp + BitVec.ofNat 64 (8 * k + 8)) = t.reg b := hload 1 b rfl
    have hexec : exec (.ldpSp a b (8 * k)) c =
        some ((c.setReg a (t.reg a)).setReg b (t.reg b)).next := by
      simp only [exec, ha, hb]
    have hsp : ((c.setReg a (t.reg a)).setReg b (t.reg b)).next.sp = c.sp := by
      simp [Core.sp, Core.spIdx, Core.next]
    refine after_cons hexec ?_
    rw [show 8 * k + 16 = 8 * (k + 2) by omega]
    refine ih (fun j r hr => ?_) fun d hx hd hps hsys hmem => ?_
    · rw [hsp, show k + 2 + j = k + (j + 2) by omega]
      simpa [Core.next] using hload (j + 2) r hr
    · refine h d (fun n => ?_) (by simpa [Core.next] using hd) (by simpa [Core.next] using hps)
        (by simpa [Core.next] using hsys) (by simpa [Core.next] using hmem)
      have hslots : Reg.x n ∈ slots ((a, b) :: pairs) ↔
          Reg.x n = a ∨ Reg.x n = b ∨ Reg.x n ∈ slots pairs := by simp [slots]
      rw [hx n, Core.x_next, Core.x_setReg_reg, Core.x_setReg_reg]
      simp only [hslots]
      split_ifs <;> first | rfl | tauto

/-! ### Exceptions -/

/-- The kinds of exceptions. -/
inductive Kind
  | sync
  | irq
  | fiq
  | serror
  deriving DecidableEq, Repr

/-- Where the vector of a kind is within its group. -/
def Kind.offset : Kind → BitVec 64
  | .sync => 0
  | .irq => 0x80
  | .fiq => 0x100
  | .serror => 0x180

/-- Which group of vectors an exception from here uses. -/
def Core.vectorGroup (c : Core) : BitVec 64 :=
  if c.ps.el = 1 then if c.ps.sp then 0x200 else 0 else 0x400

/-- An exception is taken to EL1. -/
def Core.takeException (c : Core) (kind : Kind) : Core :=
  { c with
    pc := c.sys .vbarEl1 + c.vectorGroup + kind.offset
    ps := { c.ps with daif := 0b1111, el := 1, sp := true }
    sys := Function.update (Function.update c.sys .elrEl1 c.pc) .spsrEl1 c.ps.spsr }

/-! ### Runs -/

/-- A core, and the addresses at which it has left the program. -/
structure Config where
  core : Core
  calls : List (BitVec 64)

section Runs

variable (code : BitVec 64 → Option Instr) (ext : ℕ → Core → Core)

/-- One step: an instruction of the program, or a function outside of it from its entry to
its return. -/
def step (c : Config) : Option Config :=
  match code c.core.pc with
  | some i => (exec i c.core).map fun core => ⟨core, c.calls⟩
  | none => some ⟨ext c.calls.length c.core, c.calls ++ [c.core.pc]⟩

def Reaches : Config → Config → Prop :=
  Relation.ReflTransGen fun c d => step code ext c = some d

/-- A step inside the program after which `P` relates the core to the one before. -/
def Inside (P : Core → Core → Prop) (c d : Config) : Prop :=
  step code ext c = some d ∧ d.calls = c.calls ∧ P c.core d.core

/-- A step inside the program that writes no memory. -/
def Quiet : Config → Config → Prop := Inside code ext fun c d => d.mem = c.mem

variable {code ext}

theorem Reaches.trans {c d e : Config} (h₁ : Reaches code ext c d) (h₂ : Reaches code ext d e) :
    Reaches code ext c e :=
  Relation.ReflTransGen.trans h₁ h₂

theorem Reaches.refl {c : Config} : Reaches code ext c c := Relation.ReflTransGen.refl

theorem reaches_of_inside {P : Core → Core → Prop} {c d : Config}
    (h : Relation.ReflTransGen (Inside code ext P) c d) : Reaches code ext c d :=
  Relation.ReflTransGen.mono (fun _ _ hstep => hstep.1) _ _ h

theorem step_of_code {c d : Core} {calls : List (BitVec 64)} {i : Instr}
    (hcode : code c.pc = some i) (h : exec i c = some d) :
    step code ext ⟨c, calls⟩ = some ⟨d, calls⟩ := by
  simp [step, hcode, h]

/-- **A block**: instructions that fall through to the next one are executed in sequence. -/
theorem inside_block {P : Core → Core → Prop} {is : List Instr} {c d : Core}
    {calls : List (BitVec 64)}
    (hcode : ∀ k i, is[k]? = some i → code (c.pc + BitVec.ofNat 64 (4 * k)) = some i)
    (hfalls : ∀ i ∈ is, i.falls) (hP : ∀ i ∈ is, ∀ a b, exec i a = some b → P a b)
    (h : execs is c = some d) :
    Relation.ReflTransGen (Inside code ext P) ⟨c, calls⟩ ⟨d, calls⟩ ∧
      d.pc = c.pc + BitVec.ofNat 64 (4 * is.length) := by
  induction is generalizing c with
  | nil =>
    obtain rfl : c = d := by simpa [execs] using h
    exact ⟨.refl, by simp⟩
  | cons i is ih =>
    rw [execs, List.foldlM_cons] at h
    obtain ⟨c₁, hexec, h⟩ := Option.bind_eq_some_iff.mp h
    have hpc := exec_pc_of_falls (hfalls i List.mem_cons_self) hexec
    have hnext : ∀ k, c₁.pc + BitVec.ofNat 64 (4 * k) = c.pc + BitVec.ofNat 64 (4 * (k + 1)) := by
      intro k
      rw [hpc, Nat.mul_succ, Nat.add_comm (4 * k), BitVec.ofNat_add, ← BitVec.add_assoc]
      rfl
    have hfirst : Inside code ext P ⟨c, calls⟩ ⟨c₁, calls⟩ :=
      ⟨step_of_code (by simpa using hcode 0 i rfl) hexec, rfl,
        hP i List.mem_cons_self _ _ hexec⟩
    obtain ⟨hrest, hend⟩ := ih (fun k j hj => by rw [hnext]; exact hcode (k + 1) j (by simpa))
      (fun j hj => hfalls j (List.mem_cons_of_mem _ hj))
      (fun j hj => hP j (List.mem_cons_of_mem _ hj)) h
    exact ⟨hrest.head hfirst, by rw [hend, hnext, List.length_cons]⟩

/-- **A block of a listing** that is part of the program. -/
theorem inside_after {P : Core → Core → Prop} {base : BitVec 64} {prog : List Instr}
    (hcode : ∀ pc i, listing base prog pc = some i → code pc = some i)
    (hlen : 4 * prog.length < 2 ^ 64) {k : ℕ} {is : List Instr} (hprog : is <+: prog.drop k)
    (hfalls : is.all Instr.falls = true) (hP : ∀ i ∈ is, ∀ a b, exec i a = some b → P a b)
    {c : Core} {calls : List (BitVec 64)} {Q : Core → Prop}
    (hpc : c.pc = base + BitVec.ofNat 64 (4 * k)) (h : After is c Q) :
    ∃ d, Relation.ReflTransGen (Inside code ext P) ⟨c, calls⟩ ⟨d, calls⟩ ∧
      d.pc = base + BitVec.ofNat 64 (4 * (k + is.length)) ∧ Q d := by
  obtain ⟨d, hd, hQ⟩ := h
  have hblock : ∀ j i, is[j]? = some i → code (c.pc + BitVec.ofNat 64 (4 * j)) = some i := by
    intro j i hi
    rw [hpc]
    exact hcode _ _ (listing_block hlen hprog hi)
  obtain ⟨hrun, hend⟩ := inside_block hblock (List.all_eq_true.mp hfalls) hP hd
  refine ⟨d, hrun, ?_, hQ⟩
  rw [hend, hpc, Nat.mul_add, BitVec.ofNat_add, BitVec.add_assoc]

/-- **Counted loops**: what `n` rounds lead to. -/
theorem reaches_rounds {n : ℕ} (Inv : ℕ → Config → Prop) {c : Config} (h0 : Inv 0 c)
    (hround : ∀ k c, k < n → Inv k c → ∃ d, Reaches code ext c d ∧ Inv (k + 1) d) :
    ∃ d, Reaches code ext c d ∧ Inv n d := by
  induction n with
  | zero => exact ⟨c, .refl, h0⟩
  | succ n ih =>
    obtain ⟨d, hd, hinv⟩ := ih fun k c hk => hround k c (by omega)
    obtain ⟨e, he, hinv'⟩ := hround n d (by omega) hinv
    exact ⟨e, hd.trans he, hinv'⟩

theorem step_of_none {c : Config} (hcode : code c.core.pc = none) :
    step code ext c = some ⟨ext c.calls.length c.core, c.calls ++ [c.core.pc]⟩ := by
  simp [step, hcode]

/-- What was recorded stays recorded. -/
theorem calls_grow {c d : Config} (h : Reaches code ext c d) : c.calls <+: d.calls := by
  induction h with
  | refl => exact List.prefix_rfl
  | @tail d e _ hstep ih =>
    refine ih.trans ?_
    rw [step] at hstep
    split at hstep
    · obtain ⟨core, -, rfl⟩ := Option.map_eq_some_iff.mp hstep
      exact List.prefix_rfl
    · obtain rfl := Option.some.inj hstep
      exact List.prefix_append _ _

/-- The machine is deterministic: of two runs from one configuration, one goes on from the
other. -/
theorem reaches_total {c d e : Config} (hd : Reaches code ext c d) (he : Reaches code ext c e) :
    Reaches code ext d e ∨ Reaches code ext e d := by
  have hdet : Relator.RightUnique fun c d : Config => step code ext c = some d :=
    fun _ _ _ h₁ h₂ => Option.some.inj (h₁.symm.trans h₂)
  exact Relation.ReflTransGen.total_of_right_unique hdet hd he

/-- **Programs that do nothing else**: after quiet steps to a configuration from which
nothing is written and nothing is called, nothing ever is. -/
theorem quiet_all {c d e : Config} (h : Relation.ReflTransGen (Quiet code ext) c d)
    (hd : ∀ e, Reaches code ext d e → e.core.mem = d.core.mem ∧ e.calls = d.calls)
    (he : Reaches code ext c e) : e.core.mem = c.core.mem ∧ e.calls = c.calls := by
  induction h using Relation.ReflTransGen.head_induction_on with
  | refl => exact hd e he
  | head hstep hrest ih =>
    obtain ⟨hs, hcalls, hmem⟩ := hstep
    rcases Relation.ReflTransGen.cases_head he with rfl | ⟨c₁, hs', he'⟩
    · exact ⟨rfl, rfl⟩
    · obtain rfl := Option.some.inj (hs.symm.trans hs')
      obtain ⟨hm, hc⟩ := ih he'
      exact ⟨hm.trans hmem, hc.trans hcalls⟩

end Runs

end A64

end Floss
