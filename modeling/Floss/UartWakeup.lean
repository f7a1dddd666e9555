import Floss.Runs
import Floss.Uart

/-!
# Transmit Interrupts and the Holding Register

The driver against a PL011 with its FIFOs disabled: a holding register of one byte, which
a write to `DR` fills and which the device empties on its own, raising the transmit
interrupt. The device may do so before any register access of the driver; a schedule of
one bit per access stands for its choices, and a trace records the accesses and the
emptyings in the order in which they happen.

`pl011_handle_irq` acknowledges the interrupt after it has drained the buffer. An emptying
between the last look at the flag register and that acknowledgement raises an interrupt
which the acknowledgement clears.

* `AtRest`: what is known of the device from the last read of the flag register on;
* `no_lost_wakeup_iff`: the handler returns, and with bytes left in the buffer the holding
  register is full or the interrupt is raised exactly if the device did not empty the
  register in that window;
* `wakeup_lost`: a run in which it did.
-/

namespace Floss

/-! ### The device -/

/-- What happens at the device, in order. -/
inductive HwEvent
  /-- the device empties its holding register -/
  | emptied
  | readFR
  | readDR
  | writeDR
  | readIMSC
  | writeIMSC
  | readMIS
  | writeICR
  deriving DecidableEq, Repr

/-- A PL011 with a one-byte holding register. -/
structure Holding where
  /-- the holding register is full; `FR.TXFF` shows it -/
  full : Bool
  /-- `RIS.TX` -/
  risTx : Bool
  /-- the other raw interrupt status bits -/
  risRest : BitVec 32
  imsc : BitVec 32
  rxData : UInt8
  /-- whether the device empties the register before the next access, the one after it,
  and so on -/
  schedule : List Bool
  trace : List HwEvent

/-- **The device moves on its own**: it may empty a full holding register, which raises
the transmit interrupt. -/
def Holding.advance (hw : Holding) : Holding :=
  match hw.schedule with
  | [] => hw
  | now :: later =>
    if now && hw.full then
      { hw with
        full := false, risTx := true, schedule := later, trace := hw.trace ++ [.emptied] }
    else
      { hw with schedule := later }

/-- The next access of the driver: the device moves, then the access happens. -/
def Holding.access (hw : Holding) (e : HwEvent) : Holding :=
  { hw.advance with trace := hw.advance.trace ++ [e] }

/-- `MIS = RIS & IMSC`. -/
def Holding.mis (hw : Holding) : BitVec 32 :=
  ((if hw.risTx then misTx else 0) ||| (hw.risRest &&& ~~~misTx)) &&& hw.imsc

/-- The registers. A `DR` write fills the holding register and clears `RIS.TX`; writing
one to `ICR.TX` clears `RIS.TX`. -/
def holding : Pl011 Holding where
  readFR hw := .ok (if (hw.access .readFR).full then frTxff else 0, hw.access .readFR)
  readDR hw := .ok (hw.rxData, hw.access .readDR)
  writeDR _ hw := .ok { hw.access .writeDR with full := true, risTx := false }
  readIMSC hw := .ok (hw.imsc, hw.access .readIMSC)
  writeIMSC v hw := .ok { hw.access .writeIMSC with imsc := v }
  readMIS hw := .ok ((hw.access .readMIS).mis, hw.access .readMIS)
  writeICR v hw :=
    .ok { hw.access .writeICR with
      risTx := (hw.access .writeICR).risTx && decide (v &&& misTx = 0) }

/-- The driver is about to serve a transmit interrupt. -/
structure OnTxInterrupt (u : Uart Holding) : Prop where
  irqsReady : u.irqsReady = true
  risTx : u.hw.risTx = true
  txim : u.hw.imsc &&& imscTximBit ≠ 0
  trace : u.hw.trace = []

/-- The device has emptied its holding register since the driver last read the flag
register. -/
def EmptiedUnseen (trace : List HwEvent) : Prop :=
  Since (· = .emptied) (· = .readFR) trace

/-- The device empties its holding register **between the handler's last read of the flag
register and its write to `ICR`**. -/
def EmptiedInWindow (trace : List HwEvent) : Prop :=
  ∃ pre, trace = pre ++ [.writeICR] ∧ EmptiedUnseen pre

/-! ### At rest -/

/-- What the driver may rely on after it saw the holding register full: it is full, or
the device has emptied it since and raised the interrupt. -/
def Holding.AtRest (hw : Holding) : Prop :=
  (hw.full = true ∧ ¬ EmptiedUnseen hw.trace) ∨
    (hw.full = false ∧ hw.risTx = true ∧ EmptiedUnseen hw.trace)

/-- The device's own moves keep it. -/
theorem Holding.AtRest.advance {hw : Holding} (h : hw.AtRest) : hw.advance.AtRest := by
  rw [Holding.advance]
  split
  · exact h
  · rename_i now later _
    split
    · rename_i hnow
      right
      exact ⟨rfl, rfl, since_snoc.2 (.inl rfl)⟩
    · exact h

/-- So do the accesses other than those of the drain. -/
theorem Holding.AtRest.access {hw : Holding} (h : hw.AtRest) {e : HwEvent}
    (hempty : e ≠ .emptied) (hread : e ≠ .readFR) : (hw.access e).AtRest := by
  have hsame : EmptiedUnseen (hw.access e).trace ↔ EmptiedUnseen hw.advance.trace := by
    rw [EmptiedUnseen, Holding.access, since_snoc]
    simp [hempty, hread, EmptiedUnseen]
  have hadv := h.advance
  rw [Holding.AtRest] at hadv ⊢
  rw [hsame]
  exact hadv

/-- A read of the flag register that shows a full holding register. -/
theorem atRest_readFR {hw : Holding} (h : (hw.access .readFR).full = true) :
    (hw.access .readFR).AtRest := by
  refine .inl ⟨h, ?_⟩
  rw [EmptiedUnseen, Holding.access, since_snoc]
  rintro (hlast | ⟨-, hlast⟩)
  · simp at hlast
  · exact hlast rfl

/-! ### The driver -/

/-- Bytes left in the buffer wait for a device at rest. -/
structure Waits (u : Uart Holding) : Prop where
  irqsReady : u.irqsReady = true
  rest : u.txBuffer.contents ≠ [] → u.hw.AtRest

/-- **The drain** returns, and bytes are left only behind a full holding register. -/
theorem drainLoop_waits {n : ℕ} {u : Uart Holding} (hready : u.irqsReady = true)
    (hn : u.txBuffer.contents.length < n) : ∃ u', drainLoop holding n u = .ok u' ∧ Waits u' := by
  induction n generalizing u with
  | zero => omega
  | succ n ih =>
    by_cases hfull : (u.hw.access .readFR).full = true
    · refine ⟨{ u with hw := u.hw.access .readFR }, ?_, hready, fun _ => atRest_readFR hfull⟩
      rw [drainLoop]
      simp [holding, hfull, frTxff]
    · rcases u.txBuffer.contents_readChar with ⟨hnone, hnil⟩ | ⟨c, tx, hsome, hcons⟩
      · refine ⟨{ u with hw := u.hw.access .readFR }, ?_, hready, fun h => absurd hnil h⟩
        rw [drainLoop]
        simp [holding, hfull, hnone]
      · rw [hcons, List.length_cons] at hn
        obtain ⟨u', hu', hwaits⟩ := ih (u := { u with
          txBuffer := tx
          hw := { (u.hw.access .readFR).access .writeDR with full := true, risTx := false }
          history := u.history ++ [.take c] }) hready (by simpa using hn)
        refine ⟨u', ?_, hwaits⟩
        rw [drainLoop]
        simpa [holding, hfull, hsome] using hu'

/-- `pl011_drain_tx`. -/
theorem drainTx_waits {u : Uart Holding} (hready : u.irqsReady = true) :
    ∃ u', drainTx holding u = .ok u' ∧ Waits u' :=
  drainLoop_waits hready u.txBuffer.length_contents_lt

/-- `pl011_toggle_tx_interrupts`. -/
theorem toggleTxInterrupts_waits {u : Uart Holding} (h : Waits u) (on : Bool) :
    ∃ u', toggleTxInterrupts holding on u = .ok u' ∧ Waits u' := by
  refine ⟨_, rfl, h.irqsReady, fun hne => ?_⟩
  have hrest := (h.rest hne).access (e := .readIMSC) (by simp) (by simp)
  exact hrest.access (e := .writeIMSC) (by simp) (by simp)

/-- **`pl011_send_char_async`** while interrupts are ready. -/
theorem sendCharAsync_waits {fuel : ℕ} {c : UInt8} {u : Uart Holding}
    (hready : u.irqsReady = true) :
    ∃ u', sendCharAsync holding fuel c u = .ok u' ∧ Waits u' := by
  have hready' : ((if c = 10 then u.bufferTx 13 else u).bufferTx c).irqsReady = true := by
    split <;> exact hready
  obtain ⟨v, hv, hwaits⟩ := drainTx_waits hready'
  simp only [sendCharAsync, hv, ok_bind]
  split
  · exact toggleTxInterrupts_waits hwaits false
  · rw [if_pos hwaits.irqsReady]
    exact toggleTxInterrupts_waits hwaits true

/-- Characters sent one by one. -/
theorem sendChars_waits {fuel : ℕ} (cs : List UInt8) {u : Uart Holding} (h : Waits u) :
    ∃ u', cs.foldlM (fun u c => sendCharAsync holding fuel c u) u = .ok u' ∧ Waits u' :=
  foldlM_total (fun _ u => Waits u) h fun _ _ _ _ _ hw => sendCharAsync_waits hw.irqsReady

/-- `pl011_send_str_async`. -/
theorem sendStrAsync_waits {fuel : ℕ} (str : List UInt8) {u : Uart Holding} (h : Waits u) :
    ∃ u', sendStrAsync holding fuel str u = .ok u' ∧ Waits u' := by
  induction str generalizing u with
  | nil => exact ⟨u, rfl, h⟩
  | cons c str ih =>
    rw [sendStrAsync]
    split
    · exact ⟨u, rfl, h⟩
    · have hcr : ∃ v, (if c = 10 then sendCharAsync holding fuel 13 u else .ok u) = .ok v ∧
          Waits v := by
        split
        · exact sendCharAsync_waits h.irqsReady
        · exact ⟨u, rfl, h⟩
      obtain ⟨v, hv, hwaits⟩ := hcr
      obtain ⟨w, hw, hwaits⟩ : ∃ w, sendCharAsync holding fuel c v = .ok w ∧ Waits w :=
        sendCharAsync_waits hwaits.irqsReady
      rw [hv, ok_bind, hw, ok_bind]
      exact ih hwaits

/-- `print_buffer` of a ring that is not empty. -/
theorem printBuffer_waits {fuel : ℕ} {b : CharBuffer} (hne : b.contents ≠ [])
    {u : Uart Holding} (h : Waits u) :
    ∃ u', printBuffer holding fuel b u = .ok u' ∧ Waits u' := by
  obtain ⟨v, hv, hwaits⟩ := sendStrAsync_waits (cstr "Ring buffer content: ") h
  obtain ⟨w, hw, hwaits⟩ := sendChars_waits b.contents hwaits
  rw [printBuffer_eq hne, hv, ok_bind, hw, ok_bind]
  exact sendCharAsync_waits hwaits.irqsReady

/-- The transmit block of the handler. -/
theorem handleTx_waits {u : Uart Holding} (hready : u.irqsReady = true) :
    ∃ u', handleTx holding u = .ok u' ∧ Waits u' := by
  obtain ⟨v, hv, hwaits⟩ := drainTx_waits hready
  rw [handleTx, hv, ok_bind]
  split
  · exact toggleTxInterrupts_waits hwaits false
  · exact ⟨v, rfl, hwaits⟩

/-- The receive block of the handler. -/
theorem handleRx_waits {fuel : ℕ} {u : Uart Holding} (h : Waits u) :
    ∃ u', handleRx holding fuel u = .ok u' ∧ Waits u' := by
  have hne : (u.rxBuffer.bufferChar u.hw.rxData).contents ≠ [] := by
    rw [CharBuffer.contents_bufferChar]
    simp
  refine printBuffer_waits hne ⟨h.irqsReady, fun hrest => ?_⟩
  exact (h.rest hrest).access (by simp) (by simp)

/-- The handler sees the transmit interrupt it was called for: the device's own moves
never withdraw it. -/
theorem mis_of_onTxInterrupt {u : Uart Holding} (h : OnTxInterrupt u) :
    (u.hw.access .readMIS).mis &&& misTx ≠ 0 := by
  have hris : u.hw.advance.risTx = true := by
    rw [Holding.advance]
    split
    · exact h.risTx
    · split
      · rfl
      · exact h.risTx
  have himsc : u.hw.advance.imsc = u.hw.imsc := by
    rw [Holding.advance]
    split
    · rfl
    · split <;> rfl
  intro hzero
  apply h.txim
  have : (misTx ||| (u.hw.advance.risRest &&& ~~~misTx)) &&& u.hw.imsc &&& misTx =
      u.hw.imsc &&& imscTximBit := by
    ext i
    by_cases hbit : misTx[i] = true <;> simp [imscTximBit, misTx] at hbit ⊢ <;> simp [hbit]
  rw [← this]
  simpa [Holding.access, Holding.mis, hris, himsc] using hzero

/-! ### The result -/

/-- **When no transmit wake-up is lost**. The handler returns from every transmit
interrupt, whatever the device does meanwhile; and if bytes are left in the buffer, then
the holding register is full or the transmit interrupt is raised if and only if the
device did not empty the register between the handler's last read of the flag register
and its write to `ICR`. -/
theorem no_lost_wakeup_iff {u : Uart Holding} (h : OnTxInterrupt u) (fuel : ℕ) :
    ∃ u', handleIrq holding fuel u = .ok u' ∧ (u'.txBuffer.contents ≠ [] →
      (u'.hw.full = true ∨ u'.hw.risTx = true ↔ ¬ EmptiedInWindow u'.hw.trace)) := by
  have hmis := mis_of_onTxInterrupt h
  obtain ⟨v, hv, hwaits⟩ := handleTx_waits (u := { u with hw := u.hw.access .readMIS })
    h.irqsReady
  obtain ⟨w, hw, hwaits⟩ : ∃ w, (if (u.hw.access .readMIS).mis &&& misRx ≠ 0 then
      handleRx holding fuel v else .ok v) = .ok w ∧ Waits w := by
    split
    · exact handleRx_waits hwaits
    · exact ⟨v, rfl, hwaits⟩
  refine ⟨{ w with hw := { w.hw.access .writeICR with risTx := false } }, ?_, fun hne => ?_⟩
  · have hread : holding.readMIS u.hw =
        .ok ((u.hw.access .readMIS).mis, u.hw.access .readMIS) := rfl
    rw [handleIrq, hread, ok_bind]
    dsimp only
    rw [if_pos hmis, hv, ok_bind, hw, ok_bind]
    simp only [holding, ok_bind, pure_eq_ok, decide_eq_false hmis, Bool.and_false]
  · have hwindow : EmptiedInWindow (w.hw.advance.trace ++ [.writeICR]) ↔
        EmptiedUnseen w.hw.advance.trace := by
      constructor
      · rintro ⟨pre, heq, hpre⟩
        rw [(List.append_inj' heq rfl).1]
        exact hpre
      · exact fun hpre => ⟨_, rfl, hpre⟩
    -- the device as the acknowledgement finds it
    rcases (hwaits.rest hne).advance with ⟨hfull, hseen⟩ | ⟨hfull, -, hunseen⟩
    · simp [Holding.access, hwindow, hfull, hseen]
    · simp [Holding.access, hwindow, hfull, hunseen]

/-- Two bytes wait in the buffer when the interrupt comes; the device follows
`schedule`. -/
def twoWaiting (schedule : List Bool) : Uart Holding where
  rxBuffer := .empty
  txBuffer := (CharBuffer.empty.bufferChar 97).bufferChar 98
  irqsReady := true
  hw := ⟨false, true, 0, imscTximBit, 0, schedule, []⟩
  history := []

/-- With a quiet device one byte is sent and the other waits behind the full register. -/
theorem no_lost_wakeup_iff_twoWaiting : ∃ u', handleIrq holding 0 (twoWaiting []) = .ok u' ∧
    (u'.txBuffer.contents ≠ [] →
      (u'.hw.full = true ∨ u'.hw.risTx = true ↔ ¬ EmptiedInWindow u'.hw.trace)) :=
  no_lost_wakeup_iff ⟨rfl, rfl, by simp [twoWaiting, imscTximBit], rfl⟩ 0

/-- **A lost wake-up**. The accesses are those of `MIS`, `FR`, `DR`, `FR` and `ICR`. The
device empties its register just before the last of them; the second byte stays in the
buffer with the register empty and no interrupt raised. -/
theorem wakeup_lost : ¬ ∀ (u u' : Uart Holding), OnTxInterrupt u →
    handleIrq holding 0 u = .ok u' → u'.txBuffer.contents ≠ [] →
      u'.hw.full = true ∨ u'.hw.risTx = true := by
  intro hall
  obtain ⟨u', hu', hne, hfull, hris⟩ : ∃ u', handleIrq holding 0
      (twoWaiting [false, false, false, false, true]) = .ok u' ∧
      u'.txBuffer.contents ≠ [] ∧ u'.hw.full = false ∧ u'.hw.risTx = false :=
    ⟨_, rfl, by decide, rfl, rfl⟩
  rcases hall _ u' ⟨rfl, rfl, by simp [twoWaiting, imscTximBit], rfl⟩ hu' hne with h | h
  · simp [hfull] at h
  · simp [hris] at h

end Floss
