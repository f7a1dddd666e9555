import Floss.A64
import Floss.Cpu

/-!
# From Reset to the Kernel

The startup code of `src/start.S`, instruction by instruction. A core enters at `_start`, or
at `_secondary_start` if another core started it; `drop_el2_to_el1` leaves EL2 if the core
was started there, and a core other than 0 at `_start` ends in `park`.

The addresses that the linker resolves are `Symbols`; `Linked` is what the linker script
(`linker/aarch64.ld`) says about them.

* `dropped_el2`, `stack_set`: the two subroutines;
* `other_cores_park`: a core other than 0 at `_start` never writes memory;
* `secondary_core_enters`: a core that was started gets its own stack;
* `clear_round`, `construct_round`: one iteration of each of the two loops;
* `boot_core_enters`: what the boot core has done when it enters the kernel.
-/

namespace Floss

open A64

/-- What the linker puts where. -/
structure Symbols where
  start : BitVec 64
  vectorTable : BitVec 64
  bssStart : BitVec 64
  bssEnd : BitVec 64
  initArrayStart : BitVec 64
  initArrayEnd : BitVec 64
  stacksBottom : BitVec 64
  kernMain : BitVec 64
  secondaryKernMain : BitVec 64
  deriving DecidableEq, Repr

namespace Symbols

variable (S : Symbols)

/-- The address of an instruction of `start.S`. -/
def addr (k : ℕ) : BitVec 64 := S.start + BitVec.ofNat 64 (4 * k)

/-! The labels. -/

def clearBss : BitVec 64 := S.addr 11
def clearBssDone : BitVec 64 := S.addr 15
def initArrayCall : BitVec 64 := S.addr 18
def initArrayCallDone : BitVec 64 := S.addr 24
def secondaryStart : BitVec 64 := S.addr 27
def dropEl2ToEl1 : BitVec 64 := S.addr 36
def dropReturn : BitVec 64 := S.addr 55
def setupStack : BitVec 64 := S.addr 56
def park : BitVec 64 := S.addr 61

/-- `start.S`. -/
def startCode : List Instr := [
  -- _start
  .mov (.x 19) (.x 0),
  .bl S.dropEl2ToEl1,
  .mrs (.x 0) .mpidrEl1,
  .andImm (.x 0) (.x 0) 0xff,
  .cbnz (.x 0) S.park,
  .bl S.setupStack,
  .ldrLit (.x 0) S.vectorTable,
  .msr .vbarEl1 (.x 0),
  .isb,
  .ldrLit (.x 0) S.bssStart,
  .ldrLit (.x 1) S.bssEnd,
  -- .Lclear_bss
  .cmp (.x 0) (.x 1),
  .bhs S.clearBssDone,
  .strPost .zr (.x 0) 8,
  .b S.clearBss,
  -- .Lclear_bss_done
  .dsb,
  .ldrLit (.x 20) S.initArrayStart,
  .ldrLit (.x 21) S.initArrayEnd,
  -- .Linit_array_call
  .cmp (.x 20) (.x 21),
  .bhs S.initArrayCallDone,
  .ldr (.x 0) (.x 20),
  .blr (.x 0),
  .addImm (.x 20) (.x 20) 8,
  .b S.initArrayCall,
  -- .Linit_array_call_done
  .mov (.x 0) (.x 19),
  .bl S.kernMain,
  .b S.park,
  -- _secondary_start
  .bl S.dropEl2ToEl1,
  .mrs (.x 0) .mpidrEl1,
  .andImm (.x 0) (.x 0) 0xff,
  .bl S.setupStack,
  .ldrLit (.x 0) S.vectorTable,
  .msr .vbarEl1 (.x 0),
  .isb,
  .bl S.secondaryKernMain,
  .b S.park,
  -- drop_el2_to_el1
  .mrs (.x 0) .currentEl,
  .lsrImm (.x 0) (.x 0) 2,
  .andImm (.x 0) (.x 0) 0b11,
  .cmpImm (.x 0) 2,
  .bne S.dropReturn,
  .movImm (.x 0) 1,
  .lslImm (.x 0) (.x 0) 31,
  .msr .hcrEl2 (.x 0),
  .ldrLit (.x 0) S.vectorTable,
  .msr .vbarEl2 (.x 0),
  .isb,
  .mov (.x 0) .zr,
  .orrImm (.x 0) (.x 0) (0b1111#64 <<< 6),
  .orrImm (.x 0) (.x 0) (1#64 <<< 2),
  .orrImm (.x 0) (.x 0) (1#64 <<< 0),
  .msr .spsrEl2 (.x 0),
  .ldrLit (.x 0) S.dropReturn,
  .msr .elrEl2 (.x 0),
  .eret,
  -- .Lreturn
  .ret,
  -- setup_stack
  .ldrLit (.x 1) S.stacksBottom,
  .ldrLit (.x 2) (BitVec.ofNat 64 stackSize),
  .madd (.x 1) (.x 0) (.x 2) (.x 1),
  .addSp (.x 1) (.x 2),
  .ret,
  -- park
  .wfe,
  .b S.park]

/-- The program of `start.S`. -/
def startProg : BitVec 64 → Option Instr := listing S.start S.startCode

end Symbols

section Code

variable {S : Symbols} {ext : ℕ → Core → Core} {calls : List (BitVec 64)}

/-- The instruction at an address of the program. -/
theorem startProg_addr {k : ℕ} (hk : k < 63) : S.startProg (S.addr k) = S.startCode[k]? :=
  listing_at S.start S.startCode (by omega)

/-- A branch of the program. -/
theorem start_branch {k : ℕ} {i : Instr} {c d : Core} (hi : S.startCode[k]? = some i)
    (hpc : c.pc = S.addr k) (h : exec i c = some d) (hmem : i.stores = false) :
    Relation.ReflTransGen (Quiet S.startProg ext) ⟨c, calls⟩ ⟨d, calls⟩ := by
  have hk : k < 63 := (List.getElem?_eq_some_iff.mp hi).1
  refine .single ⟨step_of_code ?_ h, rfl, exec_mem_of_not_stores hmem h⟩
  rw [hpc, startProg_addr hk, hi]

/-- A block of the program without stores. -/
theorem start_block {c : Core} {Q : Core → Prop} (k : ℕ) (is : List Instr)
    (hprog : is <+: S.startCode.drop k) (hfalls : is.all Instr.falls = true)
    (hmem : is.any Instr.stores = false) (hpc : c.pc = S.addr k) (h : After is c Q) :
    ∃ d, Relation.ReflTransGen (Quiet S.startProg ext) ⟨c, calls⟩ ⟨d, calls⟩ ∧
      d.pc = S.addr (k + is.length) ∧ Q d := by
  have hquiet : ∀ i ∈ is, i.stores = false := by
    intro i hi
    simpa using List.any_eq_false.mp hmem i hi
  have hlen : 4 * S.startCode.length < 2 ^ 64 := by
    rw [show S.startCode.length = 63 from rfl]
    norm_num
  exact inside_after (fun _ _ h => h) hlen hprog hfalls
    (fun i hi a b hab => exec_mem_of_not_stores (hquiet i hi) hab) hpc h

/-- The address of the next instruction. -/
theorem addr_next (k : ℕ) : S.addr k + 4 = S.addr (k + 1) := by
  rw [Symbols.addr, Symbols.addr, Nat.mul_succ, BitVec.ofNat_add, BitVec.add_assoc]
  rfl

/-! ### The subroutines -/

/-- What `drop_el2_to_el1` does to a core that called it. -/
structure Dropped (c d : Core) : Prop where
  x : ∀ n, n ≠ 0 → n ≠ lr → d.x n = c.x n
  spEl : d.spEl = c.spEl
  el : d.ps.el = if c.ps.el = 2 then 1 else c.ps.el
  sp : d.ps.sp = if c.ps.el = 2 then true else c.ps.sp
  daif : d.ps.daif = if c.ps.el = 2 then 0b1111 else c.ps.daif
  sys : ∀ r : SysReg, r.level = 1 → d.sys r = c.sys r
  mem : d.mem = c.mem

/-- `CurrentEL` shows the level in the bits that are compared. -/
theorem currentEl_bits (e : BitVec 2) :
    ((field e 2 >>> 2 &&& 3#64) == 2#64) = decide (e = 2#2) := by
  decide +revert

/-- The level is compared with 2. -/
theorem level_compared {c : Core} (hpc : c.pc = S.dropEl2ToEl1) (hel : 1 ≤ c.ps.el.toNat) :
    ∃ d, Relation.ReflTransGen (Quiet S.startProg ext) ⟨c, calls⟩ ⟨d, calls⟩ ∧
      d.pc = S.addr 40 ∧ d.ps.z = decide (c.ps.el = 2) ∧ Keeps [0] c d := by
  refine start_block 36 [.mrs (.x 0) .currentEl, .lsrImm (.x 0) (.x 0) 2,
    .andImm (.x 0) (.x 0) 0b11, .cmpImm (.x 0) 2] ⟨_, rfl⟩ rfl rfl hpc ?_
  refine after_mrs hel (after_cons rfl (after_cons rfl (after_cons rfl (after_nil ⟨?_, ?_⟩))))
  · simp [Core.compare, Core.next, Core.setReg, Core.reg, Core.readSys, currentEl_bits]
  · constructor
    · intro n hn
      have hn' : n ≠ 0 := by simpa using hn
      simp [Core.compare, Core.next, Core.setReg, hn']
    all_goals rfl

/-- What a core at EL2 is set up to return to. -/
theorem el2_set_up {c : Core} (hpc : c.pc = S.addr 41) (hel : c.ps.el = 2) :
    ∃ d, Relation.ReflTransGen (Quiet S.startProg ext) ⟨c, calls⟩ ⟨d, calls⟩ ∧
      d.pc = S.addr 54 ∧ d.sys .elrEl2 = S.dropReturn ∧ d.sys .spsrEl2 = 0x3c5 ∧
      (∀ n, n ≠ 0 → d.x n = c.x n) ∧ d.spEl = c.spEl ∧ d.ps = c.ps ∧
      (∀ r : SysReg, r.level = 1 → d.sys r = c.sys r) ∧ d.mem = c.mem := by
  have hlevel : ∀ r : SysReg, r.level ≤ c.ps.el.toNat := by
    intro r
    rw [hel]
    cases r <;> decide
  refine start_block 41 [.movImm (.x 0) 1, .lslImm (.x 0) (.x 0) 31, .msr .hcrEl2 (.x 0),
    .ldrLit (.x 0) S.vectorTable, .msr .vbarEl2 (.x 0), .isb, .mov (.x 0) .zr,
    .orrImm (.x 0) (.x 0) (0b1111#64 <<< 6), .orrImm (.x 0) (.x 0) (1#64 <<< 2),
    .orrImm (.x 0) (.x 0) (1#64 <<< 0), .msr .spsrEl2 (.x 0), .ldrLit (.x 0) S.dropReturn,
    .msr .elrEl2 (.x 0)] ⟨_, rfl⟩ rfl rfl hpc ?_
  refine after_cons rfl (after_cons rfl (after_msr (hlevel _) ?_))
  refine after_cons rfl (after_msr (hlevel _) (after_cons rfl ?_))
  refine after_cons rfl (after_cons rfl (after_cons rfl (after_cons rfl ?_)))
  refine after_msr (hlevel _) (after_cons rfl (after_msr (hlevel _) (after_nil ?_)))
  refine ⟨?_, ?_, ?_, rfl, rfl, ?_, rfl⟩
  · simp [Core.setSys, Core.setReg, Core.next, Core.reg]
  · simp [Core.setSys, Core.setReg, Core.next, Core.reg]
  · intro n hn
    simp [Core.setSys, Core.setReg, Core.next, hn]
  · intro r hr
    cases r with
    | hcrEl2 | vbarEl2 | elrEl2 | spsrEl2 => exact absurd hr (by decide)
    | _ => simp [Core.setSys, Core.setReg, Core.next]

/-- **`drop_el2_to_el1`** returns to its caller, at EL1 if that was at EL2. -/
theorem dropped_el2 {c : Core} (hpc : c.pc = S.dropEl2ToEl1) (hel : 1 ≤ c.ps.el.toNat) :
    ∃ d, Relation.ReflTransGen (Quiet S.startProg ext) ⟨c, calls⟩ ⟨d, calls⟩ ∧
      d.pc = c.x lr ∧ Dropped c d := by
  obtain ⟨c₁, hrun₁, hpc₁, hz, hkeep⟩ := @level_compared S ext calls c hpc hel
  by_cases h2 : c.ps.el = 2
  · have hfall : exec (.bne S.dropReturn) c₁ = some c₁.next := by
      simp [exec, hz, h2]
    have hrun₂ := @start_branch S ext calls 40 _ _ _ rfl hpc₁ hfall rfl
    obtain ⟨c₃, hrun₃, hpc₃, helr, hspsr, hx, hsp, hps, hsys, hmem⟩ :=
      @el2_set_up S ext calls c₁.next (by rw [Core.next, hpc₁, addr_next]) (hkeep.el.trans h2)
    have hps₃ : c₃.ps.el = 2 := by rw [hps]; exact hkeep.el.trans h2
    have heret : exec .eret c₃ = some { c₃ with ps := .ofSpsr 0x3c5, pc := S.dropReturn } := by
      have hlow : (PState.ofSpsr 0x3c5).el ≤ (2 : BitVec 2) := by decide
      rw [exec, if_neg (by rw [hps₃]; decide), if_pos hps₃, Core.exceptionReturn, hspsr, helr,
        hps₃, if_pos hlow]
    have hrun₄ := @start_branch S ext calls 54 _ _ _ rfl hpc₃ heret rfl
    have hrun₅ := @start_branch S ext calls 55 .ret
      { c₃ with ps := .ofSpsr 0x3c5, pc := S.dropReturn } _ rfl rfl rfl rfl
    refine ⟨_, (((hrun₁.trans hrun₂).trans hrun₃).trans hrun₄).trans hrun₅, ?_, ?_⟩
    · show c₃.x lr = c.x lr
      rw [hx lr (by decide)]
      exact hkeep.x lr (by decide)
    · refine ⟨fun n hn _ => ?_, hsp.trans hkeep.spEl, ?_, ?_, ?_, fun r hr => ?_, ?_⟩
      · exact (hx n hn).trans (hkeep.x n (by simpa using hn))
      · rw [if_pos h2]
        rfl
      · rw [if_pos h2]
        rfl
      · rw [if_pos h2]
        rfl
      · exact (hsys r hr).trans (congrFun hkeep.sys r)
      · exact hmem.trans hkeep.mem
  · have htaken : exec (.bne S.dropReturn) c₁ = some (c₁.jump S.dropReturn) := by
      rw [exec, hz, decide_eq_false h2]
      rfl
    have hrun₂ := @start_branch S ext calls 40 _ _ _ rfl hpc₁ htaken rfl
    have hrun₃ := @start_branch S ext calls 55 .ret (c₁.jump S.dropReturn) _ rfl rfl rfl rfl
    refine ⟨_, (hrun₁.trans hrun₂).trans hrun₃, hkeep.x lr (by decide), ?_⟩
    refine ⟨fun n hn _ => hkeep.x n (by simpa using hn), hkeep.spEl, ?_, ?_, ?_, ?_, hkeep.mem⟩
    · rw [if_neg h2]
      exact hkeep.el
    · rw [if_neg h2]
      exact hkeep.sp
    · rw [if_neg h2]
      exact hkeep.daif
    · exact fun r _ => congrFun hkeep.sys r

/-- **`setup_stack`** sets the stack pointer to the top of the stack of the core in `x0`. -/
theorem stack_set {c : Core} (hpc : c.pc = S.setupStack) :
    ∃ d, Relation.ReflTransGen (Quiet S.startProg ext) ⟨c, calls⟩ ⟨d, calls⟩ ∧
      d.pc = c.x lr ∧
      d.spEl = Function.update c.spEl c.spIdx
        (S.stacksBottom + c.x 0 * BitVec.ofNat 64 stackSize + BitVec.ofNat 64 stackSize) ∧
      (∀ n, n ≠ 1 → n ≠ 2 → d.x n = c.x n) ∧ d.ps = c.ps ∧ d.sys = c.sys ∧ d.mem = c.mem := by
  have hblock : ∃ d, Relation.ReflTransGen (Quiet S.startProg ext) ⟨c, calls⟩ ⟨d, calls⟩ ∧
      d.pc = S.addr 60 ∧
      d.spEl = Function.update c.spEl c.spIdx
        (S.stacksBottom + c.x 0 * BitVec.ofNat 64 stackSize + BitVec.ofNat 64 stackSize) ∧
      (∀ n, n ≠ 1 → n ≠ 2 → d.x n = c.x n) ∧ d.ps = c.ps ∧ d.sys = c.sys ∧ d.mem = c.mem := by
    refine start_block 56
      [.ldrLit (.x 1) S.stacksBottom, .ldrLit (.x 2) (BitVec.ofNat 64 stackSize),
        .madd (.x 1) (.x 0) (.x 2) (.x 1), .addSp (.x 1) (.x 2)] ⟨_, rfl⟩ rfl rfl hpc ?_
    refine after_cons rfl (after_cons rfl (after_cons rfl (after_cons rfl (after_nil ?_))))
    refine ⟨?_, ?_, rfl, rfl, rfl⟩
    · simp [Core.setSp, Core.spIdx, Core.setReg, Core.next, Core.reg]
    · intro n h1 h2
      simp [Core.setSp, Core.setReg, Core.next, h1, h2]
  obtain ⟨d, hrun, hpc₁, hsp, hx, hrest⟩ := hblock
  have hret := @start_branch S ext calls 60 .ret d _ rfl hpc₁ rfl rfl
  exact ⟨_, hrun.trans hret, hx lr (by decide) (by decide), hsp, hx, hrest⟩

/-- Any instruction of the program. -/
theorem start_instr {k : ℕ} {i : Instr} {c d : Core} (hi : S.startCode[k]? = some i)
    (hpc : c.pc = S.addr k) (h : exec i c = some d) :
    A64.Reaches S.startProg ext ⟨c, calls⟩ ⟨d, calls⟩ := by
  have hk : k < 63 := (List.getElem?_eq_some_iff.mp hi).1
  refine .single (step_of_code ?_ h)
  rw [hpc, startProg_addr hk, hi]

/-- A call links back to the next instruction. -/
theorem link_called {k : ℕ} {c : Core} (hpc : c.pc = S.addr k) (target : BitVec 64) :
    ((c.setReg (.x lr) (c.pc + 4)).jump target).x lr = S.addr (k + 1) := by
  rw [hpc, addr_next, Core.x_jump, Core.x_setReg_self]

/-- The calls of `drop_el2_to_el1`. -/
theorem drop_called {k : ℕ} (hk : S.startCode[k]? = some (.bl S.dropEl2ToEl1)) {c : Core}
    (hpc : c.pc = S.addr k) (hel : 1 ≤ c.ps.el.toNat) :
    ∃ d, Relation.ReflTransGen (Quiet S.startProg ext) ⟨c, calls⟩ ⟨d, calls⟩ ∧
      d.pc = S.addr (k + 1) ∧ Dropped c d := by
  have hcall := @start_branch S ext calls k (.bl S.dropEl2ToEl1) c _ hk hpc rfl rfl
  obtain ⟨d, hrun, hret, hd⟩ := @dropped_el2 S ext calls
    ((c.setReg (.x lr) (c.pc + 4)).jump S.dropEl2ToEl1) rfl hel
  refine ⟨d, hcall.trans hrun, ?_, ?_, hd.spEl, hd.el, hd.sp, hd.daif, hd.sys, hd.mem⟩
  · rw [hret, link_called hpc]
  · intro n h0 hlr
    rw [hd.x n h0 hlr]
    simp [Core.jump, Core.setReg, hlr]

/-- The identifier of a core is read from its affinity. -/
theorem id_read {k : ℕ}
    (hk : [.mrs (.x 0) .mpidrEl1, .andImm (.x 0) (.x 0) 0xff] <+: S.startCode.drop k) {c : Core}
    (hpc : c.pc = S.addr k) (hel : 1 ≤ c.ps.el.toNat) :
    ∃ d, Relation.ReflTransGen (Quiet S.startProg ext) ⟨c, calls⟩ ⟨d, calls⟩ ∧
      d.pc = S.addr (k + 2) ∧ d.x 0 = c.sys .mpidrEl1 &&& 0xff ∧ Keeps [0] c d := by
  refine start_block k _ hk rfl rfl hpc ?_
  refine after_mrs hel (after_cons rfl (after_nil ⟨?_, ?_⟩))
  · simp [Core.next, Core.setReg, Core.reg, Core.readSys]
  · constructor
    · intro n hn
      have hn' : n ≠ 0 := by simpa using hn
      simp [Core.next, Core.setReg, hn']
    all_goals rfl

/-- The top of the stack of a core. -/
def Symbols.stackOf (S : Symbols) (mpidr : BitVec 64) : BitVec 64 :=
  S.stacksBottom + (mpidr &&& 0xff) * BitVec.ofNat 64 stackSize + BitVec.ofNat 64 stackSize

/-- `setup_stack` computes the top of the core's stack. -/
theorem stackOf_toNat (mpidr : BitVec 64) :
    (S.stackOf mpidr).toNat = stackTop S.stacksBottom.toNat mpidr.toNat := by
  have hid := cpuId_lt mpidr.toNat
  have hand : (mpidr &&& 0xff).toNat = cpuId mpidr.toNat := BitVec.toNat_and _ _
  rw [Symbols.stackOf, BitVec.toNat_add, BitVec.toNat_add, BitVec.toNat_mul, hand, stackTop,
    stackBottom, BitVec.toNat_ofNat]
  simp only [stackSize]
  omega

/-- The calls of `setup_stack`. -/
theorem stack_called {k : ℕ} (hk : S.startCode[k]? = some (.bl S.setupStack)) {c : Core}
    (hpc : c.pc = S.addr k) {mpidr : BitVec 64} (hid : c.x 0 = mpidr &&& 0xff) :
    ∃ d, Relation.ReflTransGen (Quiet S.startProg ext) ⟨c, calls⟩ ⟨d, calls⟩ ∧
      d.pc = S.addr (k + 1) ∧ d.sp = S.stackOf mpidr ∧
      (∀ n : Fin 31, 19 ≤ n.val → n ≠ lr → d.x n = c.x n) ∧
      d.ps = c.ps ∧ d.sys = c.sys ∧ d.mem = c.mem := by
  have hcall := @start_branch S ext calls k (.bl S.setupStack) c _ hk hpc rfl rfl
  obtain ⟨d, hrun, hret, hsp, hx, hps, hsys, hmem⟩ := @stack_set S ext calls
    ((c.setReg (.x lr) (c.pc + 4)).jump S.setupStack) rfl
  refine ⟨d, hcall.trans hrun, ?_, ?_, ?_, hps, hsys, hmem⟩
  · rw [hret, link_called hpc]
  · have hidx : d.spIdx = ((c.setReg (.x lr) (c.pc + 4)).jump S.setupStack).spIdx := by
      rw [Core.spIdx, hps, Core.spIdx]
    have hx0 : ((c.setReg (.x lr) (c.pc + 4)).jump S.setupStack).x 0 = c.x 0 := by
      rw [Core.x_jump, Core.x_setReg_of_ne _ (by decide)]
    rw [Core.sp, hidx, hsp, Function.update_self, hx0, hid, Symbols.stackOf]
  · intro n hn hlr
    rw [hx n (by rintro rfl; simp at hn) (by rintro rfl; simp at hn)]
    exact Core.x_setReg_of_ne _ hlr

/-- The vectors are installed. -/
theorem vectors_set {k : ℕ} (hk : [.ldrLit (.x 0) S.vectorTable, .msr .vbarEl1 (.x 0), .isb] <+:
      S.startCode.drop k) {c : Core} (hpc : c.pc = S.addr k) (hel : 1 ≤ c.ps.el.toNat) :
    ∃ d, Relation.ReflTransGen (Quiet S.startProg ext) ⟨c, calls⟩ ⟨d, calls⟩ ∧
      d.pc = S.addr (k + 3) ∧ d.sys .vbarEl1 = S.vectorTable ∧ d.spEl = c.spEl ∧
      (∀ n, n ≠ 0 → d.x n = c.x n) ∧ d.ps = c.ps ∧ d.mem = c.mem := by
  refine start_block k _ hk rfl rfl hpc ?_
  refine after_cons rfl (after_msr hel (after_cons rfl (after_nil ⟨?_, rfl, ?_, rfl, rfl⟩)))
  · simp [Core.next, Core.setReg, Core.setSys, Core.reg]
  · intro n hn
    simp [Core.next, Core.setReg, Core.setSys, hn]

/-! ### Entering the kernel -/

/-- What the startup code has set up on a core. -/
structure SetUp (S : Symbols) (c d : Core) : Prop where
  sp : d.sp.toNat = stackTop S.stacksBottom.toNat (c.sys .mpidrEl1).toNat
  vbar : d.sys .vbarEl1 = S.vectorTable
  el : d.ps.el = if c.ps.el = 2 then 1 else c.ps.el

theorem el_dropped {e : BitVec 2} (h : 1 ≤ e.toNat) :
    1 ≤ (if e = 2 then 1 else e : BitVec 2).toNat := by
  split
  · decide
  · exact h

/-- From the call of `drop_el2_to_el1` to the identifier of the core. -/
theorem identified {k : ℕ} (hk : S.startCode[k]? = some (.bl S.dropEl2ToEl1))
    (hid : [.mrs (.x 0) .mpidrEl1, .andImm (.x 0) (.x 0) 0xff] <+: S.startCode.drop (k + 1))
    {c : Core} (hpc : c.pc = S.addr k) (hel : 1 ≤ c.ps.el.toNat) :
    ∃ d, Relation.ReflTransGen (Quiet S.startProg ext) ⟨c, calls⟩ ⟨d, calls⟩ ∧
      d.pc = S.addr (k + 3) ∧ d.x 0 = c.sys .mpidrEl1 &&& 0xff ∧ Dropped c d := by
  obtain ⟨c₁, hrun₁, hpc₁, h₁⟩ := @drop_called S ext calls k hk c hpc hel
  obtain ⟨c₂, hrun₂, hpc₂, hx₂, h₂⟩ := @id_read S ext calls (k + 1) hid c₁ hpc₁
    (by rw [h₁.el]; exact el_dropped hel)
  refine ⟨c₂, hrun₁.trans hrun₂, hpc₂, ?_, ?_, h₂.spEl.trans h₁.spEl, h₂.el.trans h₁.el,
    h₂.sp.trans h₁.sp, h₂.daif.trans h₁.daif, ?_, h₂.mem.trans h₁.mem⟩
  · rw [hx₂, h₁.sys _ rfl]
  · intro n h0 hlr
    rw [h₂.x n (by simpa using h0), h₁.x n h0 hlr]
  · intro r hr
    rw [h₂.sys, h₁.sys r hr]

/-- The stack and the vectors of a core that knows its identifier. -/
theorem set_up {k : ℕ} (hk : S.startCode[k]? = some (.bl S.setupStack))
    (hvec : [.ldrLit (.x 0) S.vectorTable, .msr .vbarEl1 (.x 0), .isb] <+:
      S.startCode.drop (k + 1))
    {c d : Core} (hpc : d.pc = S.addr k) (hel : 1 ≤ c.ps.el.toNat)
    (hid : d.x 0 = c.sys .mpidrEl1 &&& 0xff) (hd : Dropped c d) :
    ∃ e, Relation.ReflTransGen (Quiet S.startProg ext) ⟨d, calls⟩ ⟨e, calls⟩ ∧
      e.pc = S.addr (k + 4) ∧ SetUp S c e ∧
      (∀ n : Fin 31, 19 ≤ n.val → n ≠ lr → e.x n = c.x n) ∧ e.ps.daif = d.ps.daif ∧
      e.mem = c.mem := by
  obtain ⟨c₁, hrun₁, hpc₁, hsp₁, hx₁, hps₁, hsys₁, hmem₁⟩ :=
    @stack_called S ext calls k hk d hpc (c.sys .mpidrEl1) hid
  obtain ⟨c₂, hrun₂, hpc₂, hvbar, hsp₂, hx₂, hps₂, hmem₂⟩ :=
    @vectors_set S ext calls (k + 1) hvec c₁ hpc₁ (by rw [hps₁, hd.el]; exact el_dropped hel)
  refine ⟨c₂, hrun₁.trans hrun₂, hpc₂, ⟨?_, hvbar, ?_⟩, ?_, ?_, ?_⟩
  · rw [← stackOf_toNat, ← hsp₁, Core.sp, Core.spIdx, hps₂, hsp₂, Core.sp, Core.spIdx]
  · rw [hps₂, hps₁, hd.el]
  · intro n hn hlr
    have h0 : n ≠ 0 := by
      rintro rfl
      simp at hn
    rw [hx₂ n h0, hx₁ n hn hlr, hd.x n h0 hlr]
  · rw [hps₂, hps₁]
  · rw [hmem₂, hmem₁, hd.mem]

/-- The first instruction keeps the pointer to the device tree. -/
theorem fdt_stashed {c : Core} (hpc : c.pc = S.start) :
    ∃ d, Relation.ReflTransGen (Quiet S.startProg ext) ⟨c, calls⟩ ⟨d, calls⟩ ∧
      d.pc = S.addr 1 ∧ d.x 19 = c.x 0 ∧ Keeps [19] c d := by
  have hstart : c.pc = S.addr 0 := by rw [hpc, Symbols.addr, Nat.mul_zero, BitVec.add_zero]
  refine start_block 0 [.mov (.x 19) (.x 0)] ⟨_, rfl⟩ rfl rfl hstart ?_
  refine after_cons rfl (after_nil ⟨?_, fun n hn => ?_, rfl, rfl, rfl, rfl, rfl, rfl⟩)
  · rw [Core.x_next, Core.x_setReg_self]
    rfl
  · rw [Core.x_next, Core.x_setReg_of_ne _ (by simpa using hn)]

/-! ### Cores that stop -/

/-- **A parked core** stays parked, and nothing is written or called. -/
theorem parked {c d : Config} (hpc : c.core.pc = S.park) (h : A64.Reaches S.startProg ext c d) :
    (d.core.pc = S.addr 61 ∨ d.core.pc = S.addr 62) ∧ d.core.mem = c.core.mem ∧
      d.calls = c.calls := by
  induction h with
  | refl => exact ⟨.inl hpc, rfl, rfl⟩
  | @tail d e _ hstep ih =>
    obtain ⟨hat, hmem, hcalls⟩ := ih
    rcases hat with hat | hat
    · have hwfe : step S.startProg ext d = some ⟨d.core.next, d.calls⟩ :=
        step_of_code (i := .wfe) (by rw [hat, startProg_addr (by omega)]; rfl) rfl
      obtain rfl := Option.some.inj (hwfe.symm.trans hstep)
      refine ⟨.inr ?_, hmem, hcalls⟩
      rw [Core.next, hat, addr_next]
    · have hback : step S.startProg ext d = some ⟨d.core.jump S.park, d.calls⟩ :=
        step_of_code (i := .b S.park) (by rw [hat, startProg_addr (by omega)]; rfl) rfl
      obtain rfl := Option.some.inj (hback.symm.trans hstep)
      exact ⟨.inl rfl, hmem, hcalls⟩

/-- **Cores other than 0** that come through `_start` never write memory and never call
anything, whatever exception level and registers they start with. -/
theorem other_cores_park {c : Core} (hpc : c.pc = S.start) (hel : 1 ≤ c.ps.el.toNat)
    (hid : c.sys .mpidrEl1 &&& 0xff ≠ 0) {e : Config}
    (he : A64.Reaches S.startProg ext ⟨c, calls⟩ e) : e.core.mem = c.mem ∧ e.calls = calls := by
  obtain ⟨c₁, hrun₁, hpc₁, hfdt, h₁⟩ := @fdt_stashed S ext calls c hpc
  obtain ⟨c₂, hrun₂, hpc₂, hx, hd⟩ := @identified S ext calls 1 rfl ⟨_, rfl⟩ c₁ hpc₁
    (by rw [h₁.el]; exact hel)
  have htaken : exec (.cbnz (.x 0) S.park) c₂ = some (c₂.jump S.park) := by
    rw [exec, if_neg]
    rw [Core.reg, hx, h₁.sys]
    exact hid
  have hrun₃ := @start_branch S ext calls 4 _ _ _ rfl hpc₂ htaken rfl
  refine quiet_all ((hrun₁.trans hrun₂).trans hrun₃) (fun e he => ?_) he
  exact (parked rfl he).2

/-- **A last call**, whose return leads to `park`: a run has not made it yet, or the core is on
its way into `park` or in it. -/
theorem last_call_parks {k : ℕ} (hk : S.startCode[k]? = some (.b S.park)) {c e : Config} {d : Core}
    (hrun : A64.Reaches S.startProg ext c ⟨d, calls⟩) (hout : S.startProg d.pc = none)
    (hlr : d.x lr = S.addr k) (hret : ∀ n c, (ext n c).pc = c.x lr)
    (he : A64.Reaches S.startProg ext c e) :
    e.calls <+: calls ∨ e.calls = calls ++ [d.pc] ∧
      (e.core.pc = S.addr k ∨ e.core.pc = S.park ∨ e.core.pc = S.park + 4) := by
  have hcall : step S.startProg ext ⟨d, calls⟩ = some ⟨ext calls.length d, calls ++ [d.pc]⟩ :=
    step_of_none hout
  have hback : (ext calls.length d).pc = S.addr k := (hret _ _).trans hlr
  have hpark : step S.startProg ext ⟨ext calls.length d, calls ++ [d.pc]⟩ =
      some ⟨(ext calls.length d).jump S.park, calls ++ [d.pc]⟩ :=
    step_of_code (i := .b S.park)
      (by rw [hback, startProg_addr (List.getElem?_eq_some_iff.mp hk).1, hk]) rfl
  rcases reaches_total hrun he with hde | hed
  · rcases Relation.ReflTransGen.cases_head hde with rfl | ⟨c₁, hstep, hrest⟩
    · exact .inl List.prefix_rfl
    obtain rfl := Option.some.inj (hcall.symm.trans hstep)
    rcases Relation.ReflTransGen.cases_head hrest with rfl | ⟨c₂, hstep₂, hrest₂⟩
    · exact .inr ⟨rfl, .inl hback⟩
    obtain rfl := Option.some.inj (hpark.symm.trans hstep₂)
    obtain ⟨hat, -, hcalls⟩ := parked rfl hrest₂
    refine .inr ⟨hcalls, .inr ?_⟩
    rwa [Symbols.park, addr_next]
  · exact .inl (calls_grow hed)

/-- After a last call nothing more is called. -/
theorem last_called {k : ℕ} (hk : S.startCode[k]? = some (.b S.park)) {c e : Config} {d : Core}
    (hrun : A64.Reaches S.startProg ext c ⟨d, calls⟩) (hout : S.startProg d.pc = none)
    (hlr : d.x lr = S.addr k) (hret : ∀ n c, (ext n c).pc = c.x lr)
    (he : A64.Reaches S.startProg ext c e) : e.calls <+: calls ++ [d.pc] := by
  rcases last_call_parks hk hrun hout hlr hret he with h | ⟨h, -⟩
  · exact h.trans (List.prefix_append _ _)
  · exact h ▸ List.prefix_rfl

/-! ### Secondary cores -/

/-- What the linker script makes sure of. -/
structure Linked (S : Symbols) : Prop where
  bss : S.bssStart.toNat ≤ S.bssEnd.toNat
  bssAligned : 8 ∣ S.bssStart.toNat
  behindBss : S.bssEnd.toNat ≤ S.initArrayStart.toNat
  initAligned : 8 ∣ S.initArrayStart.toNat
  initArray : S.initArrayStart.toNat ≤ S.initArrayEnd.toNat
  pointers : 8 ∣ S.initArrayEnd.toNat
  fits : S.initArrayEnd.toNat < 2 ^ 63

/-- How many double words `.Lclear_bss` clears. -/
def Symbols.bssWords (S : Symbols) : ℕ := (S.bssEnd.toNat - S.bssStart.toNat + 7) / 8

/-- How many constructors there are. -/
def Symbols.ctorCount (S : Symbols) : ℕ := (S.initArrayEnd.toNat - S.initArrayStart.toNat) / 8

/-- The addresses of the constructors. -/
def Symbols.ctors (S : Symbols) (m : Bytes) : List (BitVec 64) :=
  (List.range S.ctorCount).map fun k => load64 m (S.initArrayStart + BitVec.ofNat 64 (8 * k))

/-- `.Lclear_bss` has cleared `k` words. -/
structure Clearing (S : Symbols) (c : Core) (calls : List (BitVec 64)) (k : ℕ) (d : Config) :
    Prop where
  pc : d.core.pc = S.clearBss
  place : d.core.x 0 = S.bssStart + BitVec.ofNat 64 (8 * k)
  stop : d.core.x 1 = S.bssEnd
  keeps : Keeps [0, 1] { c with mem := clearWords c.mem S.bssStart k } d.core
  calls : d.calls = calls

/-- A word of a section that does not wrap around. -/
theorem toNat_word {a : BitVec 64} {k : ℕ} (h : a.toNat + 8 * k < 2 ^ 64) :
    (a + BitVec.ofNat 64 (8 * k)).toNat = a.toNat + 8 * k := by
  rw [BitVec.toNat_add, BitVec.toNat_ofNat]
  omega

/-- The tests of the two loops. -/
theorem loop_tested {k : ℕ} {a b : Fin 31} {target : BitVec 64}
    (hcmp : S.startCode[k]? = some (.cmp (.x a) (.x b)))
    (hbhs : S.startCode[k + 1]? = some (.bhs target)) {c : Core} (hpc : c.pc = S.addr k) :
    ∃ d, A64.Reaches S.startProg ext ⟨c, calls⟩ ⟨d, calls⟩ ∧
      d.pc = (if (c.x b).toNat ≤ (c.x a).toNat then target else S.addr (k + 2)) ∧
      Keeps [] c d := by
  have hrun₁ := @start_instr S ext calls k (.cmp (.x a) (.x b)) c _ hcmp hpc rfl
  have hpc₁ : (c.compare (c.x a) (c.x b)).next.pc = S.addr (k + 1) := by
    rw [← addr_next, ← hpc]
    rfl
  have hrun₂ := @start_instr S ext calls (k + 1) (.bhs target) _ _ hbhs hpc₁ rfl
  refine ⟨_, A64.Reaches.trans hrun₁ hrun₂, ?_, ?_⟩
  · have hflag : (c.compare (c.x a) (c.x b)).next.ps.c =
        decide ((c.x b).toNat ≤ (c.x a).toNat) := rfl
    rw [hflag]
    by_cases h : (c.x b).toNat ≤ (c.x a).toNat
    · rw [if_pos h, if_pos (decide_eq_true h)]
      rfl
    · rw [if_neg h, if_neg (by simpa using h), ← addr_next, ← hpc₁]
      rfl
  · split <;> exact ⟨fun _ _ => rfl, rfl, rfl, rfl, rfl, rfl, rfl⟩

/-- One round of `.Lclear_bss`. -/
theorem clear_round (hS : Linked S) {c : Core} {k : ℕ} {d : Config} (hk : k < S.bssWords)
    (hd : Clearing S c calls k d) :
    ∃ e, A64.Reaches S.startProg ext d e ∧ Clearing S c calls (k + 1) e := by
  obtain ⟨core, log⟩ := d
  obtain ⟨hpc, hplace, hstop, hkeep, rfl⟩ := hd
  have hbelow : S.bssStart.toNat + 8 * k < S.bssEnd.toNat := by
    have := hS.bss
    rw [Symbols.bssWords] at hk
    omega
  have hfit : S.bssEnd.toNat < 2 ^ 63 := by
    have := hS.behindBss
    have := hS.initArray
    have := hS.fits
    omega
  obtain ⟨c₁, hrun₁, hpc₁, h₁⟩ := @loop_tested S ext log 11 0 1 S.clearBssDone rfl rfl core hpc
  rw [hplace, hstop, toNat_word (by omega), if_neg (by omega)] at hpc₁
  have hrun₂ := @start_instr S ext log 13 (.strPost .zr (.x 0) 8) c₁ _ rfl hpc₁ rfl
  have hrun₃ := @start_instr S ext log 14 (.b S.clearBss)
    (({ c₁ with mem := store64 c₁.mem (c₁.x 0) 0 } : Core).setReg (.x 0) (c₁.x 0 + 8)).next _ rfl
    (show c₁.pc + 4 = S.addr 14 by rw [hpc₁, addr_next]) rfl
  have hplace₁ : c₁.x 0 = S.bssStart + BitVec.ofNat 64 (8 * k) := (h₁.x 0 (by simp)).trans hplace
  refine ⟨_, (hrun₁.trans hrun₂).trans hrun₃, rfl, ?_, ?_, ?_, rfl⟩
  · rw [Core.x_jump, Core.x_next, Core.x_setReg_self, hplace₁, Nat.mul_succ,
      BitVec.ofNat_add, BitVec.add_assoc]
    rfl
  · rw [Core.x_jump, Core.x_next, Core.x_setReg_of_ne _ (by decide)]
    exact (h₁.x 1 (by simp)).trans hstop
  · refine ⟨fun n hn => ?_, h₁.spEl.trans hkeep.spEl, h₁.daif.trans hkeep.daif,
      h₁.el.trans hkeep.el, h₁.sp.trans hkeep.sp, h₁.sys.trans hkeep.sys, ?_⟩
    · have hn0 : n ≠ 0 := fun h => hn (by simp [h])
      rw [Core.x_jump, Core.x_next, Core.x_setReg_of_ne _ hn0]
      exact (h₁.x n (by simp)).trans (hkeep.x n hn)
    · show store64 c₁.mem (c₁.x 0) 0 = clearWords c.mem S.bssStart (k + 1)
      rw [hplace₁, h₁.mem, hkeep.mem]
      exact store64_clearWords _ _ (by omega)

/-- What a block that only loads registers leaves of the set up. -/
theorem SetUp.keeps {R : List (Fin 31)} {c d e : Core} (h : SetUp S c d)
    (hk : Keeps R { d with mem := e.mem } e) : SetUp S c e where
  sp := by
    rw [← h.sp, Core.sp, Core.sp, Core.spIdx, Core.spIdx, hk.sp, hk.el, hk.spEl]
  vbar := by
    rw [← h.vbar, hk.sys]
  el := by
    rw [← h.el, hk.el]

/-- The boot core up to the loop that clears `.bss`. -/
theorem boot_set_up {c : Core} (hpc : c.pc = S.start) (hel : 1 ≤ c.ps.el.toNat)
    (hid : c.sys .mpidrEl1 &&& 0xff = 0) :
    ∃ d, A64.Reaches S.startProg ext ⟨c, calls⟩ ⟨d, calls⟩ ∧ d.pc = S.clearBss ∧
      d.x 0 = S.bssStart ∧ d.x 1 = S.bssEnd ∧ d.x 19 = c.x 0 ∧ d.mem = c.mem ∧ SetUp S c d := by
  obtain ⟨c₁, hrun₁, hpc₁, hfdt, h₁⟩ := @fdt_stashed S ext calls c hpc
  have hel₁ : 1 ≤ c₁.ps.el.toNat := by rw [h₁.el]; exact hel
  obtain ⟨c₂, hrun₂, hpc₂, hx, hd⟩ := @identified S ext calls 1 rfl ⟨_, rfl⟩ c₁ hpc₁ hel₁
  have hboot : exec (.cbnz (.x 0) S.park) c₂ = some c₂.next := by
    rw [exec, if_pos]
    rw [Core.reg, hx, h₁.sys]
    exact hid
  have hrun₃ := @start_branch S ext calls 4 _ _ _ rfl hpc₂ hboot rfl
  obtain ⟨c₃, hrun₄, hpc₃, hset, hsaved, -, hmem⟩ := @set_up S ext calls 5 rfl ⟨_, rfl⟩ c₁ c₂.next
    (by rw [Core.next, hpc₂, addr_next]) hel₁ hx
    ⟨hd.x, hd.spEl, hd.el, hd.sp, hd.daif, hd.sys, hd.mem⟩
  -- the two ends of the section are loaded
  have hends : ∃ d, Relation.ReflTransGen (Quiet S.startProg ext) ⟨c₃, calls⟩ ⟨d, calls⟩ ∧
      d.pc = S.clearBss ∧ d.x 0 = S.bssStart ∧ d.x 1 = S.bssEnd ∧ Keeps [0, 1] c₃ d := by
    refine start_block 9 [.ldrLit (.x 0) S.bssStart, .ldrLit (.x 1) S.bssEnd] ⟨_, rfl⟩ rfl rfl
      hpc₃ (after_cons rfl (after_cons rfl (after_nil ⟨?_, ?_, ?_⟩)))
    · simp [Core.next, Core.setReg]
    · simp [Core.next, Core.setReg]
    · refine ⟨fun n hn => ?_, rfl, rfl, rfl, rfl, rfl, rfl⟩
      obtain ⟨h0, h1⟩ : n ≠ 0 ∧ n ≠ 1 := by simpa using hn
      simp [Core.next, Core.setReg, h0, h1]
  obtain ⟨c₄, hrun₅, hpc₄, hx0, hx1, h₄⟩ := hends
  refine ⟨c₄, reaches_of_inside ((((hrun₁.trans hrun₂).trans hrun₃).trans hrun₄).trans hrun₅),
    hpc₄, hx0, hx1, ?_, ?_, ?_⟩
  · rw [h₄.x 19 (by simp), hsaved 19 (by decide) (by decide), hfdt]
  · rw [h₄.mem, hmem, h₁.mem]
  · have hset' : SetUp S c c₃ :=
      ⟨by rw [hset.sp, h₁.sys], hset.vbar, by rw [hset.el, h₁.el]⟩
    exact hset'.keeps ⟨h₄.x, h₄.spEl, h₄.daif, h₄.el, h₄.sp, h₄.sys, rfl⟩

/-- **The boot core before the constructors.** Only `.bss` has been written. -/
theorem bss_cleared (hS : Linked S) {c : Core} (hpc : c.pc = S.start) (hel : 1 ≤ c.ps.el.toNat)
    (hid : c.sys .mpidrEl1 &&& 0xff = 0) :
    ∃ d, A64.Reaches S.startProg ext ⟨c, calls⟩ ⟨d, calls⟩ ∧ d.pc = S.clearBssDone ∧
      d.x 19 = c.x 0 ∧ d.mem = clearWords c.mem S.bssStart S.bssWords ∧ SetUp S c d := by
  obtain ⟨c₁, hrun, hpc₁, hx0, hx1, hfdt, hmem, hset⟩ := @boot_set_up S ext calls c hpc hel hid
  have hfirst : Clearing S c₁ calls 0 ⟨c₁, calls⟩ := by
    refine ⟨hpc₁, by simpa using hx0, hx1, ?_, rfl⟩
    rw [clearWords_zero]
    exact ⟨fun _ _ => rfl, rfl, rfl, rfl, rfl, rfl, rfl⟩
  obtain ⟨⟨c₂, log⟩, hloop, hlast⟩ :=
    @reaches_rounds S.startProg ext S.bssWords (Clearing S c₁ calls) _ hfirst
      fun k d hk hd => clear_round hS hk hd
  obtain ⟨hpc₂, hplace, hstop, h₂, rfl⟩ := hlast
  -- the last test
  have hdone : S.bssEnd.toNat ≤ (S.bssStart + BitVec.ofNat 64 (8 * S.bssWords)).toNat := by
    have hbss := hS.bss
    have hle : S.bssEnd.toNat < 2 ^ 63 :=
      (hS.behindBss.trans hS.initArray).trans_lt hS.fits
    have hwords : S.bssEnd.toNat ≤ S.bssStart.toNat + 8 * S.bssWords ∧
        8 * S.bssWords ≤ S.bssEnd.toNat + 7 := by
      rw [Symbols.bssWords]
      omega
    rw [toNat_word (by omega)]
    exact hwords.1
  obtain ⟨c₃, htest, hpc₃, h₃⟩ := @loop_tested S ext log 11 0 1 S.clearBssDone rfl rfl c₂ hpc₂
  rw [hplace, hstop, if_pos hdone] at hpc₃
  refine ⟨c₃, (hrun.trans hloop).trans htest, hpc₃, ?_, ?_, ?_⟩
  · rw [h₃.x 19 (by simp), h₂.x 19 (by simp)]
    exact hfdt
  · rw [h₃.mem, h₂.mem, hmem]
  · have hset₂ : SetUp S c c₂ :=
      hset.keeps ⟨h₂.x, h₂.spEl, h₂.daif, h₂.el, h₂.sp, h₂.sys, rfl⟩
    exact hset₂.keeps ⟨h₃.x, h₃.spEl, h₃.daif, h₃.el, h₃.sp, h₃.sys, rfl⟩

/-- Clearing reaches the array of constructors at most: it starts at the next double word. -/
theorem cleared_bytes (hS : Linked S) (m : Bytes) :
    (∀ b : BitVec 64, S.bssStart.toNat ≤ b.toNat → b.toNat < S.bssEnd.toNat →
        clearWords m S.bssStart S.bssWords b = 0) ∧
      ∀ b : BitVec 64, b.toNat < S.bssStart.toNat ∨ S.initArrayStart.toNat ≤ b.toNat →
        clearWords m S.bssStart S.bssWords b = m b := by
  have hbss := hS.bss
  have hbehind := hS.behindBss
  have ha := hS.bssAligned
  have ha' := hS.initAligned
  have hfit : S.initArrayStart.toNat < 2 ^ 63 := hS.initArray.trans_lt hS.fits
  have hwords : S.bssEnd.toNat ≤ S.bssStart.toNat + 8 * S.bssWords ∧
      S.bssStart.toNat + 8 * S.bssWords ≤ S.initArrayStart.toNat := by
    rw [Symbols.bssWords]
    omega
  refine ⟨fun b hb hb' => ?_, fun b hb => ?_⟩
  · have hsub : (b - S.bssStart).toNat = b.toNat - S.bssStart.toNat := by bv_omega
    rw [clearWords, if_pos (by omega)]
  · have hsub : S.initArrayStart.toNat - S.bssStart.toNat ≤ (b - S.bssStart).toNat := by
      rcases hb with hb | hb
      · rw [BitVec.toNat_sub]
        omega
      · rw [BitVec.toNat_sub]
        omega
    rw [clearWords, if_neg (by omega)]

/-- What a function that is called from the startup code keeps: by the calling convention,
and because the compiler writes no code that changes the array of constructors. -/
structure Kept (S : Symbols) (c d : Core) : Prop where
  saved : ∀ r : Fin 31, 19 ≤ r.val → r ≠ lr → d.x r = c.x r
  sp : d.sp = c.sp
  el : d.ps.el = c.ps.el
  vbar : d.sys .vbarEl1 = c.sys .vbarEl1
  initArray : ∀ b : BitVec 64, S.initArrayStart.toNat ≤ b.toNat →
    b.toNat < S.initArrayEnd.toNat → d.mem b = c.mem b

structure Conforms (S : Symbols) (ext : ℕ → Core → Core) : Prop where
  returns : ∀ n c, (ext n c).pc = c.x lr
  kept : ∀ n c, Kept S c (ext n c)

/-- A call of a function whose address is in `x0`. -/
theorem called_out {k : ℕ} (hk : S.startCode[k]? = some (.blr (.x 0))) (hext : Conforms S ext)
    {c : Core} (hpc : c.pc = S.addr k) (hout : S.startProg (c.x 0) = none) :
    ∃ d, A64.Reaches S.startProg ext ⟨c, calls⟩ ⟨d, calls ++ [c.x 0]⟩ ∧ d.pc = S.addr (k + 1) ∧
      Kept S c d := by
  have hcall := @start_instr S ext calls k (.blr (.x 0)) c _ hk hpc rfl
  have hrun : step S.startProg ext ⟨(c.setReg (.x lr) (c.pc + 4)).jump (c.x 0), calls⟩ =
      some ⟨ext calls.length ((c.setReg (.x lr) (c.pc + 4)).jump (c.x 0)), calls ++ [c.x 0]⟩ :=
    step_of_none hout
  have hkept := hext.kept calls.length ((c.setReg (.x lr) (c.pc + 4)).jump (c.x 0))
  refine ⟨_, hcall.tail hrun, ?_, fun r hr hne => ?_, hkept.sp, hkept.el, hkept.vbar,
    hkept.initArray⟩
  · rw [hext.returns, link_called hpc]
  · rw [hkept.saved r hr hne, Core.x_jump, Core.x_setReg_of_ne _ hne]

/-- `.Linit_array_call` has called `k` constructors. -/
structure Constructing (S : Symbols) (c : Core) (fdt : BitVec 64) (k : ℕ) (d : Config) : Prop where
  pc : d.core.pc = S.initArrayCall
  fdt : d.core.x 19 = fdt
  place : d.core.x 20 = S.initArrayStart + BitVec.ofNat 64 (8 * k)
  stop : d.core.x 21 = S.initArrayEnd
  setUp : SetUp S c d.core
  initArray : ∀ b : BitVec 64, S.initArrayStart.toNat ≤ b.toNat →
    b.toNat < S.initArrayEnd.toNat → d.core.mem b = c.mem b
  calls : d.calls = (S.ctors c.mem).take k

/-- The bytes of a pointer of the array lie in the array. -/
theorem ctor_congr (hS : Linked S) {m m' : Bytes} {k : ℕ} (hk : k < S.ctorCount)
    (h : ∀ b : BitVec 64, S.initArrayStart.toNat ≤ b.toNat → b.toNat < S.initArrayEnd.toNat →
      m' b = m b) :
    load64 m' (S.initArrayStart + BitVec.ofNat 64 (8 * k)) =
      load64 m (S.initArrayStart + BitVec.ofNat 64 (8 * k)) := by
  have hfit := hS.fits
  have hle := hS.initArray
  rw [Symbols.ctorCount] at hk
  have hplace : (S.initArrayStart + BitVec.ofNat 64 (8 * k)).toNat =
      S.initArrayStart.toNat + 8 * k := toNat_word (by omega)
  refine load64_congr fun b hb => ?_
  have hb' : b.toNat = S.initArrayStart.toNat + 8 * k +
      (b - (S.initArrayStart + BitVec.ofNat 64 (8 * k))).toNat := by
    rw [← hplace]
    generalize S.initArrayStart + BitVec.ofNat 64 (8 * k) = p at hb hplace ⊢
    bv_omega
  exact h b (by omega) (by omega)

/-- One round of `.Linit_array_call`. -/
theorem construct_round (hS : Linked S) (hext : Conforms S ext) {c : Core} {fdt : BitVec 64}
    (hctor : ∀ a ∈ S.ctors c.mem, S.startProg a = none) {k : ℕ} {d : Config}
    (hk : k < S.ctorCount) (hd : Constructing S c fdt k d) :
    ∃ e, A64.Reaches S.startProg ext d e ∧ Constructing S c fdt (k + 1) e := by
  obtain ⟨core, log⟩ := d
  obtain ⟨hpc, hfdt, hplace, hstop, hset, harray, hlog⟩ := hd
  have hbelow : S.initArrayStart.toNat + 8 * k < S.initArrayEnd.toNat := by
    have := hS.initArray
    rw [Symbols.ctorCount] at hk
    omega
  have hfit := hS.fits
  obtain ⟨c₁, hrun₁, hpc₁, h₁⟩ :=
    @loop_tested S ext log 18 20 21 S.initArrayCallDone rfl rfl core hpc
  rw [hplace, hstop, toNat_word (by omega), if_neg (by omega)] at hpc₁
  have hentry : load64 c₁.mem (c₁.x 20) =
      load64 c.mem (S.initArrayStart + BitVec.ofNat 64 (8 * k)) := by
    rw [h₁.x 20 (by simp), hplace]
    exact ctor_congr hS hk fun b hb hb' => by rw [h₁.mem]; exact harray b hb hb'
  have hctors : (S.ctors c.mem)[k]? = some (load64 c₁.mem (c₁.x 20)) := by
    rw [Symbols.ctors, List.getElem?_map, List.getElem?_range hk, Option.map_some, hentry]
  generalize hp : load64 c₁.mem (c₁.x 20) = p at hctors
  -- the constructor is loaded and called
  have hrun₂ : A64.Reaches S.startProg ext ⟨c₁, log⟩ ⟨(c₁.setReg (.x 0) p).next, log⟩ :=
    start_instr (k := 20) rfl hpc₁ (by rw [← hp]; rfl)
  have hx₂ : (c₁.setReg (.x 0) p).next.x 0 = p := by
    rw [Core.x_next, Core.x_setReg_self]
  obtain ⟨c₃, hrun₃, hpc₃, h₃⟩ := @called_out S ext log 21 rfl hext (c₁.setReg (.x 0) p).next
    (by rw [Core.next, Core.pc_setReg, hpc₁, addr_next])
    (by rw [hx₂]; exact hctor p (List.mem_of_getElem? hctors))
  rw [hx₂] at hrun₃
  have hsaved : ∀ r : Fin 31, 19 ≤ r.val → r ≠ lr → c₃.x r = core.x r := by
    intro r hr hne
    have h0 : r ≠ 0 := by
      rintro rfl
      simp at hr
    rw [h₃.saved r hr hne, Core.x_next, Core.x_setReg_of_ne _ h0, h₁.x r (by simp)]
  have hset₁ : SetUp S c c₁ :=
    hset.keeps ⟨h₁.x, h₁.spEl, h₁.daif, h₁.el, h₁.sp, h₁.sys, rfl⟩
  -- on to the next one
  have hrun₄ := @start_instr S ext (log ++ [p]) 22 (.addImm (.x 20) (.x 20) 8) c₃ _ rfl hpc₃ rfl
  have hrun₅ := @start_instr S ext (log ++ [p]) 23 (.b S.initArrayCall)
    (c₃.setReg (.x 20) (c₃.x 20 + 8)).next _ rfl
    (by rw [Core.next, Core.pc_setReg, hpc₃, addr_next]) rfl
  refine ⟨_, (((hrun₁.trans hrun₂).trans hrun₃).trans hrun₄).trans hrun₅, rfl, ?_, ?_, ?_,
    ?_, ?_, ?_⟩
  · rw [Core.x_jump, Core.x_next, Core.x_setReg_of_ne _ (by decide)]
    exact (hsaved 19 (by decide) (by decide)).trans hfdt
  · rw [Core.x_jump, Core.x_next, Core.x_setReg_self, hsaved 20 (by decide) (by decide)]
    rw [show core.x 20 = _ from hplace, Nat.mul_succ, BitVec.ofNat_add, BitVec.add_assoc]
    rfl
  · rw [Core.x_jump, Core.x_next, Core.x_setReg_of_ne _ (by decide)]
    exact (hsaved 21 (by decide) (by decide)).trans hstop
  · exact ⟨(congrArg _ h₃.sp).trans hset₁.sp, h₃.vbar.trans hset₁.vbar, h₃.el.trans hset₁.el⟩
  · intro b hb hb'
    exact (h₃.initArray b hb hb').trans ((congrFun h₁.mem b).trans (harray b hb hb'))
  · rw [List.take_add_one, hctors, ← show log = _ from hlog]
    rfl

/-- `.Linit_array_call` goes through the array. -/
theorem constructed (hS : Linked S) (hext : Conforms S ext) {c : Core} {fdt : BitVec 64}
    (hctor : ∀ a ∈ S.ctors c.mem, S.startProg a = none) {d : Config}
    (hd : Constructing S c fdt 0 d) :
    ∃ e, A64.Reaches S.startProg ext d ⟨e, S.ctors c.mem⟩ ∧ e.pc = S.initArrayCallDone ∧
      e.x 19 = fdt ∧ SetUp S c e := by
  obtain ⟨⟨c₁, log⟩, hloop, hlast⟩ :=
    @reaches_rounds S.startProg ext S.ctorCount (Constructing S c fdt) _ hd
      fun k d hk hd => construct_round hS hext hctor hk hd
  obtain ⟨hpc, hfdt, hplace, hstop, hset, -, hlog⟩ := hlast
  have hlen : (S.ctors c.mem).length = S.ctorCount := by simp [Symbols.ctors]
  rw [← hlen, List.take_length] at hlog
  obtain rfl : log = S.ctors c.mem := hlog
  have hdone : S.initArrayEnd.toNat ≤
      (S.initArrayStart + BitVec.ofNat 64 (8 * S.ctorCount)).toNat := by
    have hle := hS.initArray
    have hfit := hS.fits
    have h8 : S.initArrayEnd.toNat = S.initArrayStart.toNat + 8 * S.ctorCount := by
      have := hS.initAligned
      have := hS.pointers
      rw [Symbols.ctorCount]
      omega
    rw [toNat_word (by omega)]
    omega
  obtain ⟨e, htest, hpc₁, h₁⟩ :=
    @loop_tested S ext (S.ctors c.mem) 18 20 21 S.initArrayCallDone rfl rfl c₁ hpc
  rw [hplace, hstop, if_pos hdone] at hpc₁
  refine ⟨e, hloop.trans htest, hpc₁, (h₁.x 19 (by simp)).trans hfdt, ?_⟩
  exact hset.keeps ⟨h₁.x, h₁.spEl, h₁.daif, h₁.el, h₁.sp, h₁.sys, rfl⟩

/-- **The boot core.** It clears `.bss` before anything else is called, and writes nothing
below it or from the array of constructors on. Then it calls the constructors in their order
and enters the kernel, at EL1 if it came from EL2, on the first stack, with the vectors
installed and the pointer to the device tree that it was started with. In no run is anything
else called. -/
theorem boot_core_enters (hS : Linked S) (hext : Conforms S ext) {c : Core}
    (hctor : ∀ a ∈ S.ctors c.mem, S.startProg a = none) (hmain : S.startProg S.kernMain = none)
    (hpc : c.pc = S.start) (hel : 1 ≤ c.ps.el.toNat) (hid : c.sys .mpidrEl1 &&& 0xff = 0) :
    (∃ d, A64.Reaches S.startProg ext ⟨c, []⟩ ⟨d, []⟩ ∧ d.pc = S.clearBssDone ∧
        (∀ b : BitVec 64, S.bssStart.toNat ≤ b.toNat → b.toNat < S.bssEnd.toNat → d.mem b = 0) ∧
        ∀ b : BitVec 64, b.toNat < S.bssStart.toNat ∨ S.initArrayStart.toNat ≤ b.toNat →
          d.mem b = c.mem b) ∧
      (∃ d, A64.Reaches S.startProg ext ⟨c, []⟩ ⟨d, S.ctors c.mem⟩ ∧ d.pc = S.kernMain ∧
        d.x 0 = c.x 0 ∧ SetUp S c d) ∧
      ∀ e, A64.Reaches S.startProg ext ⟨c, []⟩ e → e.calls <+: S.ctors c.mem ++ [S.kernMain] := by
  obtain ⟨c₁, hrun₁, hpc₁, hfdt₁, hmem₁, hset₁⟩ := @bss_cleared S ext [] hS c hpc hel hid
  obtain ⟨hzero, hrest⟩ := cleared_bytes hS c.mem
  rw [← hmem₁] at hzero hrest
  -- the two ends of the array are loaded
  have hends : ∃ d, Relation.ReflTransGen (Quiet S.startProg ext) ⟨c₁, []⟩ ⟨d, []⟩ ∧
      d.pc = S.initArrayCall ∧ d.x 20 = S.initArrayStart ∧ d.x 21 = S.initArrayEnd ∧
      Keeps [20, 21] c₁ d := by
    refine start_block 15 [.dsb, .ldrLit (.x 20) S.initArrayStart, .ldrLit (.x 21) S.initArrayEnd]
      ⟨_, rfl⟩ rfl rfl hpc₁ (after_cons rfl (after_cons rfl (after_cons rfl
        (after_nil ⟨?_, ?_, ?_⟩))))
    · simp [Core.next, Core.setReg]
    · simp [Core.next, Core.setReg]
    · refine ⟨fun n hn => ?_, rfl, rfl, rfl, rfl, rfl, rfl⟩
      obtain ⟨h20, h21⟩ : n ≠ 20 ∧ n ≠ 21 := by simpa using hn
      simp [Core.next, Core.setReg, h20, h21]
  obtain ⟨c₂, hrun₂, hpc₂, hx20, hx21, h₂⟩ := hends
  have hfirst : Constructing S c (c.x 0) 0 ⟨c₂, []⟩ := by
    refine ⟨hpc₂, (h₂.x 19 (by simp)).trans hfdt₁, by simpa using hx20, hx21, ?_, ?_, rfl⟩
    · exact hset₁.keeps ⟨h₂.x, h₂.spEl, h₂.daif, h₂.el, h₂.sp, h₂.sys, rfl⟩
    · intro b hb _
      rw [h₂.mem]
      exact hrest b (.inr hb)
  obtain ⟨c₃, hrun₃, hpc₃, hfdt₃, hset₃⟩ := constructed hS hext hctor hfirst
  -- the pointer is restored, and the kernel entered
  have hrun₄ := @start_instr S ext (S.ctors c.mem) 24 (.mov (.x 0) (.x 19)) c₃ _ rfl hpc₃ rfl
  have hpc₄ : (c₃.setReg (.x 0) (c₃.reg (.x 19))).next.pc = S.addr 25 := by
    rw [Core.next, Core.pc_setReg, hpc₃, ← addr_next]
    rfl
  have hrun₅ := @start_instr S ext (S.ctors c.mem) 25 (.bl S.kernMain) _ _ rfl hpc₄ rfl
  have hrun := (((hrun₁.trans (reaches_of_inside hrun₂)).trans hrun₃).trans hrun₄).trans hrun₅
  refine ⟨⟨c₁, hrun₁, hpc₁, hzero, hrest⟩, ⟨_, hrun, rfl, ?_, hset₃.sp, hset₃.vbar, hset₃.el⟩,
    fun e he => ?_⟩
  · rw [Core.x_jump, Core.x_setReg_of_ne _ (by decide), Core.x_next, Core.x_setReg_self]
    exact hfdt₃
  · exact last_called (k := 26) rfl hrun hmain (link_called hpc₄ _) hext.returns he

end Code

/-! ### An image -/

/-- An image for the virtual board, with one constructor at `0x40081200`. -/
def virtImage : Symbols where
  start := 0x40080000
  vectorTable := 0x40080800
  bssStart := 0x40090000
  bssEnd := 0x40090014
  initArrayStart := 0x40090018
  initArrayEnd := 0x40090020
  stacksBottom := 0x40090020
  kernMain := 0x40081000
  secondaryKernMain := 0x40081100

/-- A core that starts at EL2 with the affinity `mpidr`. -/
def virtCore (pc mpidr : BitVec 64) : Core where
  x := fun _ => 0x48000000
  spEl := fun _ => 0
  pc := pc
  ps := ⟨false, false, false, false, 0, 2, true⟩
  sys := fun _ => mpidr
  mem := store64 (fun _ => 0xa5) 0x40090018 0x40081200

theorem virtImage_linked : Linked virtImage := by
  constructor <;> simp [virtImage]

theorem virtImage_ctors (pc mpidr : BitVec 64) :
    virtImage.ctors (virtCore pc mpidr).mem = [0x40081200] := by
  have hcount : virtImage.ctorCount = 1 := by decide
  rw [Symbols.ctors, hcount]
  exact congrArg (· :: []) (load64_store64 _ _ _)

theorem returning_conforms (S : Symbols) : Conforms S fun _ c => c.jump (c.x lr) :=
  ⟨fun _ _ => rfl, fun _ _ => ⟨fun _ _ _ => rfl, rfl, rfl, rfl, fun _ _ _ => rfl⟩⟩

theorem boot_core_enters_virt :
    ∃ d, A64.Reaches virtImage.startProg (fun _ c => c.jump (c.x lr))
        ⟨virtCore 0x40080000 0x80000000, []⟩ ⟨d, [0x40081200]⟩ ∧
      d.pc = 0x40081000 ∧ d.x 0 = 0x48000000 ∧ d.ps.el = 1 := by
  have hctor : virtImage.startProg 0x40081200 = none := by decide
  have hboot := boot_core_enters virtImage_linked (returning_conforms virtImage)
    (c := virtCore 0x40080000 0x80000000)
    (by rw [virtImage_ctors]; exact List.forall_mem_singleton.mpr hctor)
    (by decide) rfl (by decide) (by decide)
  obtain ⟨d, hrun, hpc, hx, hset⟩ := hboot.2.1
  rw [virtImage_ctors] at hrun
  exact ⟨d, hrun, hpc, hx, hset.el⟩

theorem other_cores_park_virt :
    ∃ e, step virtImage.startProg (fun _ c => c.jump (c.x lr))
        ⟨virtCore 0x40080000 0x80000001, []⟩ = some e ∧ e.calls = [] := by
  refine ⟨⟨((virtCore 0x40080000 0x80000001).setReg (.x 19) 0x48000000).next, []⟩, rfl, ?_⟩
  exact (@other_cores_park virtImage (fun _ c => c.jump (c.x lr)) []
    (virtCore 0x40080000 0x80000001) rfl (by decide) (by decide) _ (.single rfl)).2

end Floss
