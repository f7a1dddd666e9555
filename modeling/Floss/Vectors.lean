import Floss.A64

/-!
# The Exception Vectors

The entry code and the vector table of `src/exceptions.S`. An exception at EL1 on the
level's own stack saves the registers that a function may change, calls the handlers and
loads the registers back; every other vector is a branch to itself. The handlers are
functions written elsewhere (`ext`).

* `InFrame`, `after_saveRegisters`: what the frame holds, and that it is made;
* `interrupt_resumes`: an interrupt leaves no trace in the interrupted code's registers;
* `exception_resumes_or_stops`: what `exception_handler` returns decides;
* `other_vectors_stop`: an exception from anywhere else stops the core.

`ELR_EL1` and `SPSR_EL1` are not part of the frame: resuming needs handlers that leave them
alone, which an exception inside of a handler would not.
-/

namespace Floss

open A64

/-- What the linker puts where. -/
structure Vectors where
  exceptionEntry : BitVec 64
  vectorTable : BitVec 64
  exceptionHandler : BitVec 64
  acknowledgeInterrupt : BitVec 64
  irqHandler : BitVec 64
  endOfInterrupt : BitVec 64
  deriving DecidableEq, Repr

/-- `save_registers`. -/
def saveRegisters : List Instr := [
  .subSpImm 192,
  .stpSp (.x 0) (.x 1) 0,
  .stpSp (.x 2) (.x 3) 16,
  .stpSp (.x 4) (.x 5) 32,
  .stpSp (.x 6) (.x 7) 48,
  .stpSp (.x 8) (.x 9) 64,
  .stpSp (.x 10) (.x 11) 80,
  .stpSp (.x 12) (.x 13) 96,
  .stpSp (.x 14) (.x 15) 112,
  .stpSp (.x 16) (.x 17) 128,
  .stpSp (.x 18) (.x 29) 144,
  .stpSp (.x 30) .zr 160]

/-- `restore_registers`. -/
def restoreRegisters : List Instr := [
  .ldpSp (.x 0) (.x 1) 0,
  .ldpSp (.x 2) (.x 3) 16,
  .ldpSp (.x 4) (.x 5) 32,
  .ldpSp (.x 6) (.x 7) 48,
  .ldpSp (.x 8) (.x 9) 64,
  .ldpSp (.x 10) (.x 11) 80,
  .ldpSp (.x 12) (.x 13) 96,
  .ldpSp (.x 14) (.x 15) 112,
  .ldpSp (.x 16) (.x 17) 128,
  .ldpSp (.x 18) (.x 29) 144,
  .ldpSp (.x 30) .zr 160,
  .addSpImm 192]

/-- `ExceptionFrame`: the registers in the order of its fields. -/
def exceptionFrame : List Reg :=
  [.x 0, .x 1, .x 2, .x 3, .x 4, .x 5, .x 6, .x 7, .x 8, .x 9, .x 10, .x 11, .x 12, .x 13, .x 14,
    .x 15, .x 16, .x 17, .x 18, .x 29, .x 30, .zr]

namespace Vectors

variable (V : Vectors)

/-- The address of an instruction of the entry code. -/
def addr (k : ℕ) : BitVec 64 := V.exceptionEntry + BitVec.ofNat 64 (4 * k)

/-! The labels. -/

def panic : BitVec 64 := V.addr 28
def irqEntry : BitVec 64 := V.addr 29
def fiqEntry : BitVec 64 := V.addr 58

/-- `exception_entry`. -/
def exceptionCode : List Instr :=
  saveRegisters ++ [.movSp (.x 0), .bl V.exceptionHandler, .cbnz (.x 0) V.panic] ++
    restoreRegisters ++ [.eret]

/-- `irq_entry` and `fiq_entry`. -/
def irqCode : List Instr :=
  saveRegisters ++
    [.movSp (.x 1), .bl V.acknowledgeInterrupt, .bl V.irqHandler, .bl V.endOfInterrupt] ++
    restoreRegisters ++ [.eret]

def entryCode : List Instr := V.exceptionCode ++ [.b V.panic] ++ V.irqCode ++ V.irqCode

/-- A vector, `vector .` if it has no label. -/
def vector (k : ℕ) (label : Option (BitVec 64)) : Instr :=
  .b (label.getD (V.vectorTable + BitVec.ofNat 64 (0x80 * k)))

/-- `vector_table`. -/
def table : List Instr := [
  -- on the stack of EL0
  V.vector 0 none,
  V.vector 1 none,
  V.vector 2 none,
  V.vector 3 none,
  -- on the level's own stack
  V.vector 4 (some V.exceptionEntry),
  V.vector 5 (some V.irqEntry),
  V.vector 6 (some V.fiqEntry),
  V.vector 7 (some V.exceptionEntry),
  -- from the level below, 64-bit
  V.vector 8 none,
  V.vector 9 none,
  V.vector 10 none,
  V.vector 11 none,
  -- from the level below, 32-bit
  V.vector 12 none,
  V.vector 13 none,
  V.vector 14 none,
  V.vector 15 none]

/-- The program of `exceptions.S`: the vectors lie 128 bytes apart. -/
def prog (pc : BitVec 64) : Option Instr :=
  if (pc - V.vectorTable).toNat % 0x80 = 0 ∧ (pc - V.vectorTable).toNat < 0x800 then
    V.table[(pc - V.vectorTable).toNat / 0x80]?
  else
    listing V.exceptionEntry V.entryCode pc

/-- The table lies behind the entry code, and the handlers lie elsewhere. -/
structure Linked : Prop where
  behind : 348 ≤ (V.vectorTable - V.exceptionEntry).toNat
  fits : (V.vectorTable - V.exceptionEntry).toNat < 2 ^ 63
  handlers : ∀ a ∈ [V.exceptionHandler, V.acknowledgeInterrupt, V.irqHandler, V.endOfInterrupt],
    V.prog a = none

end Vectors

section Entry

variable {V : Vectors} {ext : ℕ → Core → Core} {calls : List (BitVec 64)}

/-- The entry code is not hidden by the table. -/
theorem prog_of_listing (hV : V.Linked) {pc : BitVec 64} {i : Instr}
    (h : listing V.exceptionEntry V.entryCode pc = some i) : V.prog pc = some i := by
  have hlen : V.entryCode.length = 87 := rfl
  have hnear : (pc - V.exceptionEntry).toNat < 348 := by
    rw [listing, Option.ite_none_right_eq_some] at h
    have := (List.getElem?_eq_some_iff.mp h.2).1
    omega
  have hbefore : ¬ (pc - V.vectorTable).toNat < 0x800 := by
    have hbehind := hV.behind
    have hfits := hV.fits
    have hsub : pc - V.vectorTable =
        (pc - V.exceptionEntry) - (V.vectorTable - V.exceptionEntry) := by ring
    rw [hsub]
    generalize pc - V.exceptionEntry = a at hnear
    generalize V.vectorTable - V.exceptionEntry = b at hbehind hfits
    rw [BitVec.toNat_sub]
    omega
  rw [Vectors.prog, if_neg (fun h => hbefore h.2), h]

/-- The vector of an exception. -/
theorem prog_vector {k : ℕ} {i : Instr} (hi : V.table[k]? = some i) :
    V.prog (V.vectorTable + BitVec.ofNat 64 (0x80 * k)) = some i := by
  have hk : k < 16 := (List.getElem?_eq_some_iff.mp hi).1
  have hdiff : (V.vectorTable + BitVec.ofNat 64 (0x80 * k) - V.vectorTable).toNat = 0x80 * k := by
    rw [add_sub_cancel_left, BitVec.toNat_ofNat]
    omega
  rw [Vectors.prog, hdiff, if_pos (by omega), Nat.mul_div_cancel_left k (by omega), hi]

/-- The address of the next instruction. -/
theorem Vectors.addr_next (k : ℕ) : V.addr k + 4 = V.addr (k + 1) := by
  rw [Vectors.addr, Vectors.addr, Nat.mul_succ, BitVec.ofNat_add, BitVec.add_assoc]
  rfl

/-- An instruction of the entry code. -/
theorem entry_instr (hV : V.Linked) {k : ℕ} {i : Instr} {c d : Core}
    (hi : V.entryCode[k]? = some i) (hpc : c.pc = V.addr k) (h : exec i c = some d) :
    A64.Reaches V.prog ext ⟨c, calls⟩ ⟨d, calls⟩ := by
  have hk : k < 87 := (List.getElem?_eq_some_iff.mp hi).1
  refine .single (step_of_code (prog_of_listing hV ?_) h)
  rw [hpc, Vectors.addr, listing_at _ _ (by omega), hi]

/-- A block of the entry code. -/
theorem entry_block (hV : V.Linked) {c : Core} {Q : Core → Prop} (k : ℕ) (is : List Instr)
    (hprog : is <+: V.entryCode.drop k) (hfalls : is.all Instr.falls = true)
    (hpc : c.pc = V.addr k) (h : After is c Q) :
    ∃ d, A64.Reaches V.prog ext ⟨c, calls⟩ ⟨d, calls⟩ ∧ d.pc = V.addr (k + is.length) ∧ Q d := by
  have hlen : 4 * V.entryCode.length < 2 ^ 64 := by
    rw [show V.entryCode.length = 87 from rfl]
    norm_num
  obtain ⟨d, hrun, hend, hQ⟩ := @inside_after V.prog ext (fun _ _ => True) V.exceptionEntry
    V.entryCode (fun pc i h => prog_of_listing hV h) hlen k is hprog hfalls
    (fun _ _ _ _ _ => trivial) c calls Q hpc h
  exact ⟨d, reaches_of_inside hrun, hend, hQ⟩

/-! ### The frame -/

/-- The pairs in which the registers are saved. -/
def framePairs : List (Reg × Reg) :=
  [(.x 0, .x 1), (.x 2, .x 3), (.x 4, .x 5), (.x 6, .x 7), (.x 8, .x 9), (.x 10, .x 11),
    (.x 12, .x 13), (.x 14, .x 15), (.x 16, .x 17), (.x 18, .x 29), (.x 30, .zr)]

/-- **While an exception is handled** that interrupted the core `t`: its registers are in the
frame at the stack pointer, or have not been touched. -/
structure InFrame (t d : Core) : Prop where
  sp : d.sp = t.sp - 192
  frame : ∀ j r, exceptionFrame[j]? = some r →
    load64 d.mem (d.sp + BitVec.ofNat 64 (8 * j)) = t.reg r
  untouched : ∀ n, Reg.x n ∉ exceptionFrame → d.x n = t.x n
  el : d.ps.el = 1
  spsel : d.ps.sp = true
  elr : d.sys .elrEl1 = t.pc
  spsr : d.sys .spsrEl1 = t.ps.spsr

/-- The registers of the frame may change. -/
theorem InFrame.setReg {t d : Core} (h : InFrame t d) {n : Fin 31}
    (hn : Reg.x n ∈ exceptionFrame) (v : BitVec 64) : InFrame t (d.setReg (.x n) v) where
  sp := h.sp
  frame := h.frame
  untouched m hm := by
    have hne : m ≠ n := by
      rintro rfl
      exact hm hn
    rw [Core.x_setReg_of_ne _ hne, h.untouched m hm]
  el := h.el
  spsel := h.spsel
  elr := h.elr
  spsr := h.spsr

theorem InFrame.jump {t d : Core} (h : InFrame t d) (pc : BitVec 64) : InFrame t (d.jump pc) :=
  ⟨h.sp, h.frame, h.untouched, h.el, h.spsel, h.elr, h.spsr⟩

/-- What was interrupted, at EL1 on the level's own stack. -/
structure Interrupted (V : Vectors) (t : Core) : Prop where
  el : t.ps.el = 1
  spsel : t.ps.sp = true
  vbar : t.sys .vbarEl1 = V.vectorTable

/-- **`save_registers`** makes the frame. -/
theorem after_saveRegisters {t : Core} (ht : Interrupted V t) (kind : Kind) (pc : BitVec 64) :
    After saveRegisters ((t.takeException kind).jump pc) (InFrame t) := by
  have hsave : saveRegisters = .subSpImm 192 :: (stpAll (8 * 0) framePairs ++ []) := rfl
  have hidx : t.spIdx = 1 := by rw [Core.spIdx, ht.spsel, if_pos rfl, ht.el]
  have hsp : t.sp = t.spEl 1 := by rw [Core.sp, hidx]
  rw [hsave]
  refine after_cons rfl (after_stpAll (after_nil ?_))
  refine ⟨?_, ?_, fun n _ => rfl, rfl, rfl, ?_, ?_⟩
  · show (((t.takeException kind).jump pc).setSp (t.spEl 1 - 192)).sp = t.sp - 192
    rw [Core.sp_setSp, hsp]
  · intro j r hj
    refine load64_storeWords (by simp [slots, framePairs]) ?_
    have hregs : slots framePairs = exceptionFrame := rfl
    rw [hregs, List.getElem?_map, hj]
    cases r <;> rfl
  · simp [Core.takeException, Core.setSp, Core.next, Core.jump]
  · simp [Core.takeException, Core.setSp, Core.next, Core.jump]

/-- **`restore_registers`** loads it. -/
theorem after_restoreRegisters {t d : Core} (hd : InFrame t d) :
    After restoreRegisters d fun e => e.x = t.x ∧ e.sp = t.sp ∧ e.ps.el = 1 ∧
      e.ps.sp = true ∧ e.sys .elrEl1 = t.pc ∧ e.sys .spsrEl1 = t.ps.spsr := by
  have hrestore : restoreRegisters = ldpAll (8 * 0) framePairs ++ [.addSpImm 192] := rfl
  have hregs : slots framePairs = exceptionFrame := rfl
  rw [hrestore]
  refine after_ldpAll (t := t) (fun j r hj => ?_) fun e hx hsp hps hsys _ => ?_
  · rw [Nat.zero_add]
    exact hd.frame j r hj
  · refine after_cons rfl (after_nil ⟨?_, ?_, ?_, ?_, ?_, ?_⟩)
    · funext n
      refine (hx n).trans ?_
      split
      · rfl
      · rename_i hn
        exact hd.untouched n hn
    · have hesp : e.sp = d.sp := by rw [Core.sp, Core.sp, Core.spIdx, Core.spIdx, hsp, hps]
      show (e.setSp (e.sp + 192)).sp = t.sp
      rw [Core.sp_setSp, hesp, hd.sp, sub_add_cancel]
    · exact (congrArg PState.el hps).trans hd.el
    · exact (congrArg PState.sp hps).trans hd.spsel
    · exact (congrFun hsys _).trans hd.elr
    · exact (congrFun hsys _).trans hd.spsr

/-- `restore_registers` and `eret` resume what was interrupted. -/
theorem resumed (hV : V.Linked) {t d : Core} (ht : Interrupted V t) (hd : InFrame t d) {k : ℕ}
    (hk : restoreRegisters <+: V.entryCode.drop k) (hret : V.entryCode[k + 12]? = some .eret)
    (hpc : d.pc = V.addr k) :
    ∃ e, A64.Reaches V.prog ext ⟨d, calls⟩ ⟨e, calls⟩ ∧ e.x = t.x ∧ e.sp = t.sp ∧ e.pc = t.pc ∧
      e.ps = t.ps := by
  obtain ⟨e, hrun, hpc', hx, hsp, hel, hspsel, helr, hspsr⟩ :=
    @entry_block V ext calls hV d _ k restoreRegisters hk rfl hpc (after_restoreRegisters hd)
  have heret : exec .eret e = some { e with ps := t.ps, pc := t.pc } := by
    rw [exec, if_pos hel, Core.exceptionReturn, helr, hspsr, PState.ofSpsr_spsr, hel, ht.el,
      if_pos (by decide)]
  have hrun' := @entry_instr V ext calls hV (k + 12) .eret e _ hret hpc' heret
  refine ⟨_, hrun.trans hrun', hx, ?_, rfl, rfl⟩
  rw [← hsp, Core.sp, Core.sp, Core.spIdx, Core.spIdx, ht.spsel, ht.el, hspsel, hel]

/-! ### Handlers -/

/-- What the calling convention promises of a handler, and that it is not interrupted itself
and leaves the frame alone. -/
structure Handles (c d : Core) : Prop where
  returns : d.pc = c.x lr
  saved : ∀ n, Reg.x n ∉ exceptionFrame → d.x n = c.x n
  sp : d.sp = c.sp
  el : d.ps.el = c.ps.el
  spsel : d.ps.sp = c.ps.sp
  frame : ∀ b : BitVec 64, (b - c.sp).toNat < 176 → d.mem b = c.mem b
  elr : d.sys .elrEl1 = c.sys .elrEl1
  spsr : d.sys .spsrEl1 = c.sys .spsrEl1

/-- The frame outlives a handler. -/
theorem InFrame.handles {t c d : Core} (hc : InFrame t c) (h : Handles c d) : InFrame t d where
  sp := h.sp.trans hc.sp
  frame j r hj := by
    have hlen : j < 22 := (List.getElem?_eq_some_iff.mp hj).1
    rw [h.sp, ← hc.frame j r hj]
    refine load64_congr fun b hb => h.frame b ?_
    rw [toNat_sub_word (by omega)] at hb
    split at hb <;> omega
  untouched n hn := (h.saved n hn).trans (hc.untouched n hn)
  el := h.el.trans hc.el
  spsel := h.spsel.trans hc.spsel
  elr := h.elr.trans hc.elr
  spsr := h.spsr.trans hc.spsr

/-- A handler is called. -/
theorem handler_called (hV : V.Linked) (hext : ∀ n c, Handles c (ext n c)) {t d : Core}
    (hd : InFrame t d) {k : ℕ} {target : BitVec 64} (hk : V.entryCode[k]? = some (.bl target))
    (hout : V.prog target = none) (hpc : d.pc = V.addr k) :
    ∃ e, A64.Reaches V.prog ext ⟨d, calls⟩ ⟨e, calls⟩ ∧ e.pc = target ∧
      (∀ n, n ≠ lr → e.x n = d.x n) ∧
      InFrame t e ∧ A64.Reaches V.prog ext ⟨e, calls⟩ ⟨ext calls.length e, calls ++ [target]⟩ ∧
      (ext calls.length e).pc = V.addr (k + 1) ∧ InFrame t (ext calls.length e) := by
  have hcall := @entry_instr V ext calls hV k (.bl target) d _ hk hpc rfl
  have hin : InFrame t ((d.setReg (.x lr) (d.pc + 4)).jump target) :=
    (hd.setReg (by simp [exceptionFrame, lr]) _).jump _
  refine ⟨_, hcall, rfl, fun n hn => ?_, hin, .single (step_of_none hout), ?_,
    hin.handles (hext _ _)⟩
  · rw [Core.x_jump, Core.x_setReg_of_ne _ hn]
  · rw [(hext _ _).returns, Core.x_jump, Core.x_setReg_self, hpc, Vectors.addr_next]

/-- Where an exception on the level's own stack leads. -/
def Vectors.entry (V : Vectors) : Kind → BitVec 64
  | .sync | .serror => V.exceptionEntry
  | .irq => V.irqEntry
  | .fiq => V.fiqEntry

/-- The vector of an exception on the level's own stack. -/
theorem vector_taken {t : Core} (ht : Interrupted V t) (kind : Kind) :
    A64.Reaches V.prog ext ⟨t.takeException kind, calls⟩
      ⟨(t.takeException kind).jump (V.entry kind), calls⟩ := by
  have hgroup : t.vectorGroup = 0x200 := by
    rw [Core.vectorGroup, if_pos ht.el, if_pos ht.spsel]
  have hpc : (t.takeException kind).pc = V.vectorTable + 0x200 + kind.offset := by
    rw [← hgroup, ← ht.vbar]
    rfl
  refine .single (step_of_code (i := .b (V.entry kind)) ?_ rfl)
  rw [hpc, BitVec.add_assoc]
  cases kind with
  | sync => exact prog_vector (k := 4) rfl
  | irq => exact prog_vector (k := 5) rfl
  | fiq => exact prog_vector (k := 6) rfl
  | serror => exact prog_vector (k := 7) rfl

/-- A branch to itself is the end of every run. -/
theorem stuck_at {c d : Config} (hcode : V.prog c.core.pc = some (.b c.core.pc))
    (h : A64.Reaches V.prog ext c d) : d = c := by
  induction h with
  | refl => rfl
  | tail _ hstep ih =>
    have hself : step V.prog ext c = some c := step_of_code hcode rfl
    rw [ih, hself] at hstep
    exact (Option.some.inj hstep).symm

/-! ### Whole exceptions -/

/-- **Interrupts.** From the vector on, every register of the interrupted core, its stack
pointer, program counter and process state come back. In between the three handlers are
called, each with the result of the one before. -/
theorem interrupt_resumes (hV : V.Linked) (hext : ∀ n c, Handles c (ext n c)) {t : Core}
    (ht : Interrupted V t) {kind : Kind} (hkind : kind = .irq ∨ kind = .fiq) :
    ∃ e₁ e₂ e₃ d,
      A64.Reaches V.prog ext ⟨t.takeException kind, calls⟩ ⟨e₁, calls⟩ ∧
        e₁.pc = V.acknowledgeInterrupt ∧
      A64.Reaches V.prog ext ⟨e₁, calls⟩ ⟨e₂, calls ++ [V.acknowledgeInterrupt]⟩ ∧
        e₂.pc = V.irqHandler ∧ e₂.x 0 = (ext calls.length e₁).x 0 ∧
      A64.Reaches V.prog ext ⟨e₂, calls ++ [V.acknowledgeInterrupt]⟩
        ⟨e₃, calls ++ [V.acknowledgeInterrupt, V.irqHandler]⟩ ∧
        e₃.pc = V.endOfInterrupt ∧ e₃.x 0 = (ext (calls.length + 1) e₂).x 0 ∧
      A64.Reaches V.prog ext ⟨e₃, calls ++ [V.acknowledgeInterrupt, V.irqHandler]⟩
        ⟨d, calls ++ [V.acknowledgeInterrupt, V.irqHandler, V.endOfInterrupt]⟩ ∧
        d.x = t.x ∧ d.sp = t.sp ∧ d.pc = t.pc ∧ d.ps = t.ps := by
  have hentry : ∃ k, V.entry kind = V.addr k ∧ V.irqCode <+: V.entryCode.drop k := by
    rcases hkind with rfl | rfl
    · exact ⟨29, rfl, _, rfl⟩
    · exact ⟨58, rfl, _, rfl⟩
  obtain ⟨k, hlabel, hcode⟩ := hentry
  have hvector := @vector_taken V ext calls t ht kind
  rw [hlabel] at hvector
  -- the frame is made, and its address put into `x1`
  obtain ⟨c₁, hrun₁, hpc₁, h₁⟩ := @entry_block V ext calls hV _ _ k
    (saveRegisters ++ [.movSp (.x 1)]) (List.IsPrefix.trans ⟨_, rfl⟩ hcode) rfl rfl
    (after_append (after_saveRegisters ht kind (V.addr k)) fun d hd =>
      after_cons rfl (after_nil ((hd.setReg (by simp [exceptionFrame]) d.sp).jump (d.pc + 4))))
  -- the handlers
  obtain ⟨e₁, hrun₂, hpc₂, -, -, hext₂, hret₂, h₂⟩ := @handler_called V ext calls hV hext t c₁ h₁
    (k + 13) V.acknowledgeInterrupt (getElem?_of_block hcode rfl) (hV.handlers _ (by simp)) hpc₁
  obtain ⟨e₂, hrun₃, hpc₃, hx₃, -, hext₃, hret₃, h₃⟩ :=
    @handler_called V ext (calls ++ [V.acknowledgeInterrupt]) hV hext t _ h₂ (k + 14) V.irqHandler
      (getElem?_of_block hcode rfl) (hV.handlers _ (by simp)) hret₂
  obtain ⟨e₃, hrun₄, hpc₄, hx₄, -, hext₄, hret₄, h₄⟩ :=
    @handler_called V ext (calls ++ [V.acknowledgeInterrupt, V.irqHandler]) hV hext t _ h₃ (k + 15)
      V.endOfInterrupt (getElem?_of_block hcode rfl) (hV.handlers _ (by simp)) hret₃
  rw [List.append_assoc, List.length_append, List.length_singleton] at hext₃
  rw [List.length_append, List.length_singleton] at hx₄ hrun₄
  rw [List.append_assoc] at hext₄
  -- the registers are loaded back
  obtain ⟨d, hrun₅, hx, hsp, hpc, hps⟩ := resumed hV ht h₄ (k := k + 16)
    (block_part hcode ⟨_, rfl⟩)
    (show V.entryCode[k + 28]? = some .eret from getElem?_of_block hcode rfl) hret₄
  exact ⟨e₁, e₂, e₃, d, (hvector.trans hrun₁).trans hrun₂, hpc₂, hext₂.trans hrun₃, hpc₃,
    hx₃ 0 (by decide), hext₃.trans hrun₄, hpc₄, hx₄ 0 (by decide), hext₄.trans hrun₅,
    hx, hsp, hpc, hps⟩

/-- `exception_handler` is called with the address of the frame. -/
theorem exception_entered (hV : V.Linked) (hext : ∀ n c, Handles c (ext n c)) {t : Core}
    (ht : Interrupted V t) {kind : Kind} (hkind : kind = .sync ∨ kind = .serror) :
    ∃ e, A64.Reaches V.prog ext ⟨t.takeException kind, calls⟩ ⟨e, calls⟩ ∧
      e.pc = V.exceptionHandler ∧ e.x 0 = e.sp ∧ InFrame t e ∧
      A64.Reaches V.prog ext ⟨e, calls⟩ ⟨ext calls.length e, calls ++ [V.exceptionHandler]⟩ ∧
      (ext calls.length e).pc = V.addr 14 ∧ InFrame t (ext calls.length e) := by
  have hlabel : V.entry kind = V.addr 0 := by
    rcases hkind with rfl | rfl <;> exact (BitVec.add_zero _).symm
  have hvector := @vector_taken V ext calls t ht kind
  rw [hlabel] at hvector
  -- the frame is made, and its address put into `x0`
  obtain ⟨c₁, hrun₁, hpc₁, h₁, hx₁⟩ := @entry_block V ext calls hV _
    (fun d => InFrame t d ∧ d.x 0 = d.sp) 0 (saveRegisters ++ [.movSp (.x 0)]) ⟨_, rfl⟩ rfl rfl
    (after_append (after_saveRegisters ht kind (V.addr 0)) fun d hd => by
      refine after_cons rfl (after_nil ⟨(hd.setReg (by simp [exceptionFrame]) d.sp).jump _, ?_⟩)
      rw [Core.x_next, Core.x_setReg_self]
      rfl)
  obtain ⟨e, hrun₂, hpc₂, hx₂, hframe, hrun₃, hret, h₃⟩ :=
    @handler_called V ext calls hV hext t c₁ h₁ 13 V.exceptionHandler rfl
      (hV.handlers _ (by simp)) hpc₁
  refine ⟨e, (hvector.trans hrun₁).trans hrun₂, hpc₂, ?_, hframe, hrun₃, hret, h₃⟩
  rw [hx₂ 0 (by decide), hx₁, h₁.sp, hframe.sp]

/-- **Exceptions.** `exception_handler` is given a frame with the registers of the interrupted
core. If it returns zero, everything comes back; else the core stays where it is for ever. -/
theorem exception_resumes_or_stops (hV : V.Linked) (hext : ∀ n c, Handles c (ext n c)) {t : Core}
    (ht : Interrupted V t) {kind : Kind} (hkind : kind = .sync ∨ kind = .serror) :
    ∃ e d,
      A64.Reaches V.prog ext ⟨t.takeException kind, calls⟩ ⟨e, calls⟩ ∧ e.pc = V.exceptionHandler ∧
      (∀ j r, exceptionFrame[j]? = some r →
        load64 e.mem (e.x 0 + BitVec.ofNat 64 (8 * j)) = t.reg r) ∧
      A64.Reaches V.prog ext ⟨e, calls⟩ ⟨d, calls ++ [V.exceptionHandler]⟩ ∧
      if (ext calls.length e).x 0 = 0 then d.x = t.x ∧ d.sp = t.sp ∧ d.pc = t.pc ∧ d.ps = t.ps
      else d.pc = V.panic ∧ ∀ f, A64.Reaches V.prog ext ⟨d, calls ++ [V.exceptionHandler]⟩ f →
        f = ⟨d, calls ++ [V.exceptionHandler]⟩ := by
  obtain ⟨e, hrun, hpc, hx, hframe, hcall, hret, h₁⟩ :=
    @exception_entered V ext calls hV hext t ht kind hkind
  -- its result is tested
  have htest := @entry_instr V ext (calls ++ [V.exceptionHandler]) hV 14 (.cbnz (.x 0) V.panic) _ _
    rfl hret rfl
  by_cases hzero : (ext calls.length e).x 0 = 0
  · rw [show (ext calls.length e).reg (.x 0) = 0 from hzero, if_pos rfl] at htest
    obtain ⟨d, hrun', hd⟩ := resumed hV ht (h₁.jump ((ext calls.length e).pc + 4)) (k := 15)
      ⟨_, rfl⟩ rfl (by rw [hret]; exact Vectors.addr_next 14)
    refine ⟨e, d, hrun, hpc, hx ▸ hframe.frame, (hcall.trans htest).trans hrun', ?_⟩
    rw [if_pos hzero]
    exact hd
  · rw [if_neg (show ¬ (ext calls.length e).reg (.x 0) = 0 from hzero)] at htest
    refine ⟨e, _, hrun, hpc, hx ▸ hframe.frame, hcall.trans htest, ?_⟩
    rw [if_neg hzero]
    refine ⟨rfl, fun f hf => stuck_at ?_ hf⟩
    exact prog_of_listing hV (listing_at _ _ (by norm_num))

/-- **Other exceptions**, from below EL1 or on the stack of EL0: the core stays at the vector
for ever, and nothing is called or written. -/
theorem other_vectors_stop {t : Core} (hvbar : t.sys .vbarEl1 = V.vectorTable)
    (hother : t.ps.el = 0 ∨ t.ps.el = 1 ∧ t.ps.sp = false) (kind : Kind) {f : Config}
    (hf : A64.Reaches V.prog ext ⟨t.takeException kind, calls⟩ f) :
    f = ⟨t.takeException kind, calls⟩ := by
  refine stuck_at ?_ hf
  have hpc : (t.takeException kind).pc = V.vectorTable + (t.vectorGroup + kind.offset) := by
    rw [← hvbar, ← BitVec.add_assoc]
    rfl
  show V.prog (t.takeException kind).pc = some (.b (t.takeException kind).pc)
  rw [hpc]
  rcases hother with hel | ⟨hel, hsp⟩
  · rw [Core.vectorGroup, if_neg (by rw [hel]; decide)]
    cases kind with
    | sync => exact prog_vector (k := 8) rfl
    | irq => exact prog_vector (k := 9) rfl
    | fiq => exact prog_vector (k := 10) rfl
    | serror => exact prog_vector (k := 11) rfl
  · rw [Core.vectorGroup, if_pos hel, hsp]
    cases kind with
    | sync => exact prog_vector (k := 0) rfl
    | irq => exact prog_vector (k := 1) rfl
    | fiq => exact prog_vector (k := 2) rfl
    | serror => exact prog_vector (k := 3) rfl

end Entry

/-! ### An image -/

/-- The vectors of an image for the virtual board. -/
def virtVectors : Vectors where
  exceptionEntry := 0x40080400
  vectorTable := 0x40080800
  exceptionHandler := 0x40082000
  acknowledgeInterrupt := 0x40082100
  irqHandler := 0x40082200
  endOfInterrupt := 0x40082300

theorem virtVectors_linked : virtVectors.Linked := by
  refine ⟨by decide, by decide, ?_⟩
  simp only [List.forall_mem_cons]
  exact ⟨by decide, by decide, by decide, by decide, List.forall_mem_nil _⟩

/-- A core that is interrupted at `0x40083000`. -/
def busyCore : Core where
  x := fun n => BitVec.ofNat 64 n
  spEl := fun _ => 0x400a0000
  pc := 0x40083000
  ps := ⟨false, true, false, false, 0, 1, true⟩
  sys := fun _ => 0x40080800
  mem := fun _ => 0

/-- The same on the stack of EL0. -/
def lowCore : Core := { busyCore with ps := { busyCore.ps with sp := false } }

/-- A handler that returns zero. -/
def returnsZero (c : Core) : Core := (c.setReg (.x 0) 0).jump (c.x lr)

theorem handles_returnsZero (c : Core) : Handles c (returnsZero c) := by
  refine ⟨rfl, fun n hn => ?_, rfl, rfl, rfl, fun _ _ => rfl, rfl, rfl⟩
  have h0 : n ≠ 0 := by
    rintro rfl
    exact hn (by simp [exceptionFrame])
  rw [returnsZero, Core.x_jump, Core.x_setReg_of_ne _ h0]

theorem interrupt_resumes_virt :
    ∃ e d, A64.Reaches virtVectors.prog (fun _ => returnsZero) ⟨busyCore.takeException .irq, []⟩
        ⟨e, []⟩ ∧
      A64.Reaches virtVectors.prog (fun _ => returnsZero) ⟨e, []⟩
        ⟨d, [0x40082100, 0x40082200, 0x40082300]⟩ ∧
      d.x = busyCore.x ∧ d.pc = 0x40083000 := by
  obtain ⟨e₁, e₂, e₃, d, h₁, -, h₂, -, -, h₃, -, -, h₄, hx, -, hpc, -⟩ :=
    @interrupt_resumes virtVectors (fun _ => returnsZero) [] virtVectors_linked
      (fun _ => handles_returnsZero) busyCore ⟨rfl, rfl, rfl⟩ .irq (.inl rfl)
  exact ⟨e₁, d, h₁, (h₂.trans h₃).trans h₄, hx, hpc⟩

theorem exception_resumes_or_stops_virt :
    ∃ d, A64.Reaches virtVectors.prog (fun _ => returnsZero) ⟨busyCore.takeException .sync, []⟩
        ⟨d, [0x40082000]⟩ ∧ d.x = busyCore.x ∧ d.pc = 0x40083000 := by
  obtain ⟨e, d, h₁, -, -, h₂, hd⟩ :=
    @exception_resumes_or_stops virtVectors (fun _ => returnsZero) [] virtVectors_linked
      (fun _ => handles_returnsZero) busyCore ⟨rfl, rfl, rfl⟩ .sync (.inl rfl)
  have hzero : (returnsZero e).x 0 = 0 := Core.x_setReg_self (c := e) 0 0
  rw [if_pos hzero] at hd
  exact ⟨d, h₁.trans h₂, hd.1, hd.2.2.1⟩

theorem other_vectors_stop_virt :
    ∃ f, step virtVectors.prog (fun _ => returnsZero) ⟨lowCore.takeException .irq, []⟩ = some f ∧
      f = ⟨lowCore.takeException .irq, []⟩ :=
  ⟨_, rfl, @other_vectors_stop virtVectors (fun _ => returnsZero) [] lowCore rfl
    (.inr ⟨rfl, rfl⟩) .irq _ (.single rfl)⟩

end Floss
