import Floss.CharBuffer

/-!
# The PL011 Driver

The transmit and receive paths of `src/uart.cpp`, written over an arbitrary device. The
device is what the driver sees of it: how its registers answer a read and what a write
does to them (`Pl011`). One text of the driver is then run against different devices:
one whose flag register answers anything at all, and one that empties its holding
register while the driver runs.

A loop that ends by itself has a bound that is never reached; a loop that waits for the
device takes the number of iterations it may make as `fuel`, and `Fault.fuel` stands for
a run that has not returned within it.

The state carries a history that is not a variable of the program: what was put into
`_tx_buffer` and what was moved from it to the data register, in the order of the
program. The results of the following modules are stated with it.

* `sendCharSync`, `sendStrSync`: the senders that wait for the device;
* `drainTx`, `sendCharAsync`, `sendStrAsync`, `printBuffer`, `handleIrq`: the buffered path;
* `drainTx_spec`: a drain moves a prefix of the buffer to the data register;
* `printLoop_eq`: the print loop sends the contents of the receive buffer;
* `elementsInBuffer_counts_iff`: when the count of a ring is the number of its characters.
-/

namespace Floss

/-! ### Registers and state -/

/-- A PL011, as the driver sees it: the registers it reads and writes. Reads may change
the device. The data bits of `DR` are its low eight. -/
structure Pl011 (H : Type) where
  readFR : H → Exec (BitVec 32 × H)
  readDR : H → Exec (UInt8 × H)
  writeDR : UInt8 → H → Exec H
  readIMSC : H → Exec (BitVec 32 × H)
  writeIMSC : BitVec 32 → H → Exec H
  readMIS : H → Exec (BitVec 32 × H)
  writeICR : BitVec 32 → H → Exec H

def frTxff : BitVec 32 := 1 <<< 5
def imscTximBit : BitVec 32 := 1 <<< 5
def imscRximBit : BitVec 32 := 1 <<< 4
def misTx : BitVec 32 := 1 <<< 5
def misRx : BitVec 32 := 1 <<< 4

/-- The static variables of the driver, the device behind `uart` (which is set: the
device tree has been parsed), and the history of the transmit path. -/
structure Uart (H : Type) where
  rxBuffer : CharBuffer
  txBuffer : CharBuffer
  irqsReady : Bool
  hw : H
  history : List (QueueEvent UInt8)

variable {H : Type} (P : Pl011 H)

/-- `_tx_buffer.buffer_char(c)`, with its entry in the history. -/
def Uart.bufferTx (u : Uart H) (c : UInt8) : Uart H :=
  { u with txBuffer := u.txBuffer.bufferChar c, history := u.history ++ [.put c] }

/-! ### The driver -/

/-- `pl011_wait_poll_tx_complete`. -/
def waitPollTxComplete : (fuel : ℕ) → H → Exec H
  | 0, _ => .error .fuel
  | fuel + 1, hw => do
      let (fr, hw) ← P.readFR hw
      if fr &&& frTxff ≠ 0 then
        waitPollTxComplete fuel hw
      else
        return hw

/-- What both synchronous senders do for a character: `'\r'` before `'\n'`, then the
character, each time waiting for room. -/
def putSync (fuel : ℕ) (c : UInt8) (hw : H) : Exec H := do
  let hw ← (if c = 10 then do
      let hw ← P.writeDR 13 hw
      waitPollTxComplete P fuel hw
    else .ok hw)
  let hw ← P.writeDR c hw
  waitPollTxComplete P fuel hw

/-- `pl011_send_char_sync`. -/
def sendCharSync (fuel : ℕ) (c : UInt8) (hw : H) : Exec H := do
  let hw ← waitPollTxComplete P fuel hw
  putSync P fuel c hw

/-- The loop of `pl011_send_str_sync`. The list is what stands in memory from `str` on. -/
def sendStrSyncLoop (fuel : ℕ) : List UInt8 → H → Exec H
  | [], hw => .ok hw
  | c :: str, hw => do
      if c = 0 then
        return hw
      else
        let hw ← putSync P fuel c hw
        sendStrSyncLoop fuel str hw

/-- `pl011_send_str_sync`. -/
def sendStrSync (fuel : ℕ) (str : List UInt8) (hw : H) : Exec H := do
  let hw ← waitPollTxComplete P fuel hw
  sendStrSyncLoop P fuel str hw

/-- `signal_irqs_ready`. -/
def signalIrqsReady (u : Uart H) : Uart H := { u with irqsReady := true }

/-- `toggle_imsc_mask`: read-modify-write of one bit. -/
def toggleImscMask (on : Bool) (bit : BitVec 32) (u : Uart H) : Exec (Uart H) := do
  let (oldMask, hw) ← P.readIMSC u.hw
  let newMask := if on then oldMask ||| bit else oldMask &&& ~~~bit
  let hw ← P.writeIMSC newMask hw
  return { u with hw := hw }

/-- `pl011_toggle_tx_interrupts`. -/
def toggleTxInterrupts (on : Bool) (u : Uart H) : Exec (Uart H) :=
  toggleImscMask P on imscTximBit u

/-- The loop of `pl011_drain_tx`. Each iteration but the last takes a character. -/
def drainLoop : (bound : ℕ) → Uart H → Exec (Uart H)
  | 0, _ => .error .fuel
  | bound + 1, u => do
      let (fr, hw) ← P.readFR u.hw
      if fr &&& frTxff = 0 then
        match u.txBuffer.readChar with
        | none => return { u with hw := hw }
        | some (c, txBuffer) =>
          let hw ← P.writeDR c hw
          drainLoop bound
            { u with txBuffer := txBuffer, hw := hw, history := u.history ++ [.take c] }
      else
        return { u with hw := hw }

/-- `pl011_drain_tx`. The ring holds at most 63 characters. -/
def drainTx (u : Uart H) : Exec (Uart H) :=
  drainLoop P bufferSize u

/-- The synchronous drain of `pl011_send_char_async`, while interrupts are not ready. -/
def syncDrain (wait : ℕ) : (fuel : ℕ) → Uart H → Exec (Uart H)
  | 0, _ => .error .fuel
  | fuel + 1, u => do
      if u.txBuffer.elementsInBuffer ≠ 0 then
        let hw ← waitPollTxComplete P wait u.hw
        let u ← drainTx P { u with hw := hw }
        syncDrain wait fuel u
      else
        return u

/-- `pl011_send_char_async`. -/
def sendCharAsync (fuel : ℕ) (c : UInt8) (u : Uart H) : Exec (Uart H) := do
  let u := if c = 10 then u.bufferTx 13 else u
  let u := u.bufferTx c
  let u ← drainTx P u
  if u.txBuffer.elementsInBuffer = 0 then
    toggleTxInterrupts P false u
  else if u.irqsReady then
    toggleTxInterrupts P true u
  else
    syncDrain P fuel fuel u

/-- `pl011_send_str_async`. The list is what stands in memory from `str` on. -/
def sendStrAsync (fuel : ℕ) : List UInt8 → Uart H → Exec (Uart H)
  | [], u => .ok u
  | c :: str, u => do
      if c = 0 then
        return u
      else
        let u ← (if c = 10 then sendCharAsync P fuel 13 u else .ok u)
        let u ← sendCharAsync P fuel c u
        sendStrAsync fuel str u

/-- The loop of `print_buffer` from slot `current` on; its body comes before its test. -/
def printLoop (fuel : ℕ) (b : CharBuffer) :
    (bound : ℕ) → Fin bufferSize → Uart H → Exec (Uart H)
  | 0, _, _ => .error .fuel
  | bound + 1, current, u => do
      let u ← sendCharAsync P fuel (b.ringBuffer current) u
      let current := current + 1
      if current ≠ b.finish then
        printLoop fuel b bound current u
      else
        return u

/-- `print_buffer` of `b`. -/
def printBuffer (fuel : ℕ) (b : CharBuffer) (u : Uart H) : Exec (Uart H) := do
  if b.start = b.finish then
    return u
  else
    let u ← sendStrAsync P fuel (cstr "Ring buffer content: ") u
    let u ← printLoop P fuel b bufferSize b.start u
    sendCharAsync P fuel 10 u

/-- The transmit block of `pl011_handle_irq`. -/
def handleTx (u : Uart H) : Exec (Uart H) := do
  let u ← drainTx P u
  if u.txBuffer.elementsInBuffer = 0 then
    toggleTxInterrupts P false u
  else
    return u

/-- The receive block of `pl011_handle_irq`. -/
def handleRx (fuel : ℕ) (u : Uart H) : Exec (Uart H) := do
  let (c, hw) ← P.readDR u.hw
  let u := { u with rxBuffer := u.rxBuffer.bufferChar c, hw := hw }
  printBuffer P fuel u.rxBuffer u

/-- `pl011_handle_irq`. -/
def handleIrq (fuel : ℕ) (u : Uart H) : Exec (Uart H) := do
  let (mis, hw) ← P.readMIS u.hw
  let u := { u with hw := hw }
  let u ← (if mis &&& misTx ≠ 0 then handleTx P u else .ok u)
  let u ← (if mis &&& misRx ≠ 0 then handleRx P fuel u else .ok u)
  let hw ← P.writeICR mis u.hw
  return { u with hw := hw }

/-! ### What the loops do -/

variable {P}

/-- The buffer has given up `cs`, and the rest of the driver is as it was. -/
structure Uart.Moved (u u' : Uart H) (cs : List UInt8) : Prop where
  contents : u.txBuffer.contents = cs ++ u'.txBuffer.contents
  history : u'.history = u.history ++ cs.map .take
  rxBuffer : u'.rxBuffer = u.rxBuffer
  irqsReady : u'.irqsReady = u.irqsReady

/-- A change of the device alone moves nothing. -/
theorem Uart.moved_hw (u : Uart H) (hw : H) : Uart.Moved u { u with hw := hw } [] :=
  ⟨rfl, by simp, rfl, rfl⟩

/-- Moves one after the other. -/
theorem Uart.Moved.trans {u v w : Uart H} {as bs : List UInt8} (h₁ : Uart.Moved u v as)
    (h₂ : Uart.Moved v w bs) : Uart.Moved u w (as ++ bs) where
  contents := by rw [h₁.contents, h₂.contents, List.append_assoc]
  history := by rw [h₂.history, h₁.history, List.map_append, List.append_assoc]
  rxBuffer := h₂.rxBuffer.trans h₁.rxBuffer
  irqsReady := h₂.irqsReady.trans h₁.irqsReady

/-- **The drain loop** moves a prefix of the buffer to the data register. `R` is what
becomes of the device, composed from the accesses the loop makes. -/
theorem drainLoop_spec {R : H → List UInt8 → H → Prop}
    (hFR : ∀ hw fr hw', P.readFR hw = .ok (fr, hw') → R hw [] hw')
    (hDR : ∀ hw c hw', P.writeDR c hw = .ok hw' → R hw [c] hw')
    (htrans : ∀ hw hw' hw'' as bs, R hw as hw' → R hw' bs hw'' → R hw (as ++ bs) hw'')
    {n : ℕ} {u u' : Uart H} (h : drainLoop P n u = .ok u') :
    ∃ cs, u.Moved u' cs ∧ R u.hw cs u'.hw := by
  induction n generalizing u with
  | zero => simp [drainLoop] at h
  | succ n ih =>
    rw [drainLoop] at h
    obtain ⟨⟨fr, hw⟩, hfr, h⟩ := bind_eq_ok.1 h
    have hread := hFR _ _ _ hfr
    dsimp only at h
    split at h
    · rcases u.txBuffer.contents_readChar with ⟨hnone, -⟩ | ⟨c, tx, hsome, hcons⟩
      · simp only [hnone, pure_eq_ok, Except.ok.injEq] at h
        subst h
        exact ⟨[], u.moved_hw hw, hread⟩
      · simp only [hsome] at h
        obtain ⟨hw', hdr, h⟩ := bind_eq_ok.1 h
        obtain ⟨cs, hmoved, hR⟩ := ih h
        have hone : u.Moved { u with
            txBuffer := tx, hw := hw', history := u.history ++ [.take c] } [c] :=
          ⟨by simpa using hcons, by simp, rfl, rfl⟩
        exact ⟨[c] ++ cs, hone.trans hmoved,
          htrans _ _ _ [c] cs (htrans _ _ _ [] [c] hread (hDR _ _ _ hdr)) hR⟩
    · simp only [pure_eq_ok, Except.ok.injEq] at h
      subst h
      exact ⟨[], u.moved_hw hw, hread⟩

/-- **The print loop** sends the characters from its slot to the end, one by one. -/
theorem printLoop_eq {fuel : ℕ} {b : CharBuffer} {n bound : ℕ} {current : Fin bufferSize}
    {u : Uart H} (hn : current + Fin.ofNat bufferSize (n + 1) = b.finish)
    (hlt : n + 1 < bufferSize) (hbound : n < bound) :
    printLoop P fuel b bound current u =
      (window b.ringBuffer current (n + 1)).foldlM
        (fun u c => sendCharAsync P fuel c u) u := by
  induction n generalizing bound current u with
  | zero =>
    obtain ⟨bound, rfl⟩ : ∃ k, bound = k + 1 := ⟨bound - 1, by omega⟩
    have hone : current + 1 = b.finish := by
      rw [← hn]
      rfl
    rw [printLoop, window_cons, window_zero]
    simp only [hone, ne_eq, not_true_eq_false, if_false, List.foldlM_cons, List.foldlM_nil]
  | succ n ih =>
    obtain ⟨bound, rfl⟩ : ∃ k, bound = k + 1 := ⟨bound - 1, by omega⟩
    have hstep : current + 1 + Fin.ofNat bufferSize (n + 1) = b.finish := by
      rw [← hn, ofNat_succ (n + 1), add_assoc, add_comm 1]
    have hne : current + 1 ≠ b.finish := by
      intro h
      rw [← h] at hstep
      have hv := congrArg Fin.val (add_eq_left.1 hstep)
      rw [Fin.val_ofNat, Nat.mod_eq_of_lt (by omega)] at hv
      simp at hv
    rw [printLoop, window_cons, List.foldlM_cons]
    refine bind_congr fun v => ?_
    simp only [ne_eq, hne, not_false_eq_true, if_true]
    exact ih hstep (by omega) (by omega)

/-- **`print_buffer`** of a ring that is not empty sends the header, the contents and a
newline. -/
theorem printBuffer_eq {fuel : ℕ} {b : CharBuffer} {u : Uart H} (hne : b.contents ≠ []) :
    printBuffer P fuel b u = (do
      let u ← sendStrAsync P fuel (cstr "Ring buffer content: ") u
      let u ← b.contents.foldlM (fun u c => sendCharAsync P fuel c u) u
      sendCharAsync P fuel 10 u) := by
  have hpos : (b.finish - b.start).val ≠ 0 := by
    rw [← CharBuffer.length_contents]
    exact fun h => hne (List.length_eq_zero_iff.1 h)
  obtain ⟨n, hn⟩ := Nat.exists_eq_succ_of_ne_zero hpos
  have hlt : n + 1 < bufferSize := by
    have := (b.finish - b.start).isLt
    omega
  have hfinish : b.start + Fin.ofNat bufferSize (n + 1) = b.finish := by
    rw [b.finish_eq, hn]
  rw [printBuffer, if_neg fun h => hne (CharBuffer.contents_eq_nil.2 h), CharBuffer.contents, hn]
  refine bind_congr fun v => ?_
  rw [printLoop_eq hfinish hlt (by omega)]

/-! ### Counting the characters -/

namespace CharBuffer

/-- `while (b.read_char(c))`: the characters that come before the first `false`. -/
def readAll : (fuel : ℕ) → CharBuffer → Exec (List UInt8)
  | 0, _ => .error .fuel
  | fuel + 1, b =>
      match b.readChar with
      | none => .ok []
      | some (c, b) => do
          return c :: (← readAll fuel b)

/-- `print_buffer` of `b` sends its header, then `cs`, then the newline, on every device
and in every state of the driver. Nothing at all is sent when there is nothing to print. -/
def Prints (b : CharBuffer) (cs : List UInt8) : Prop :=
  ∀ (H : Type) (P : Pl011 H) (fuel : ℕ) (u : Uart H), printBuffer P fuel b u =
    if cs = [] then .ok u else do
      let u ← sendStrAsync P fuel (cstr "Ring buffer content: ") u
      let u ← cs.foldlM (fun u c => sendCharAsync P fuel c u) u
      sendCharAsync P fuel 10 u

/-- The count is the number of characters that can be read, and these are the ones that
are printed. -/
def CountsChars (b : CharBuffer) : Prop :=
  ∃ cs, b.readAll bufferSize = .ok cs ∧ b.Prints cs ∧ b.elementsInBuffer.toNat = cs.length

/-- **Reading to the end** gives the contents. -/
theorem readAll_eq {fuel : ℕ} {b : CharBuffer} (h : b.contents.length < fuel) :
    b.readAll fuel = .ok b.contents := by
  induction fuel generalizing b with
  | zero => omega
  | succ fuel ih =>
    rcases b.contents_readChar with ⟨hnone, hnil⟩ | ⟨c, b', hsome, hcons⟩
    · simp only [readAll, hnone, hnil]
    · have hlen : b'.contents.length < fuel := by
        rw [hcons, List.length_cons] at h
        omega
      simp only [readAll, hsome, ih hlen, ok_bind, pure_eq_ok, hcons]

/-- **Printing** sends the contents. -/
theorem prints_contents (b : CharBuffer) : b.Prints b.contents := by
  intro H P fuel u
  by_cases hne : b.contents = []
  · rw [if_pos hne, printBuffer, if_pos (contents_eq_nil.1 hne)]
    rfl
  · rw [if_neg hne, printBuffer_eq hne]

/-- **The count is right for the empty ring only**: the difference of the indices has the
wrong sign while they have not wrapped around, and is one too large when they have. -/
theorem toNat_elementsInBuffer_eq {b : CharBuffer} :
    b.elementsInBuffer.toNat = b.contents.length ↔ b.start = b.finish := by
  have hs : b.start.val < 64 := b.start.isLt
  have hf : b.finish.val < 64 := b.finish.isLt
  have hsize : bufferSize = 64 := rfl
  constructor
  · intro h
    by_contra hne
    have hne' : b.start.val ≠ b.finish.val := fun hv => hne (Fin.ext hv)
    rw [length_contents, Fin.sub_def, elementsInBuffer, if_neg hne] at h
    by_cases hlt : b.start < b.finish
    · have hlt' : b.start.val < b.finish.val := hlt
      rw [if_pos hlt, UInt8.toNat_sub, UInt8.toNat_ofNat', UInt8.toNat_ofNat'] at h
      simp only [hsize] at h
      omega
    · have hge : b.finish.val ≤ b.start.val := Nat.le_of_not_lt hlt
      rw [if_neg hlt, UInt8.toNat_ofNat'] at h
      simp only [hsize] at h
      omega
  · intro h
    rw [contents_eq_nil.2 h, elementsInBuffer, if_pos h]
    rfl

/-- **When the count is right**: in every state that `buffer_char` and `read_char` lead to
from a fresh ring, `elements_in_buffer` is the number of characters that can be read, which
are those that are printed, if and only if the ring is empty. -/
theorem elementsInBuffer_counts_iff (calls : List (QueueCall UInt8)) :
    (queue.run calls empty).2.CountsChars ↔
      (queue.run calls empty).2.start = (queue.run calls empty).2.finish := by
  generalize (queue.run calls empty).2 = b
  rw [← toNat_elementsInBuffer_eq]
  constructor
  · rintro ⟨cs, hread, -, hcount⟩
    rw [readAll_eq b.length_contents_lt] at hread
    rw [hcount, Except.ok.inj hread]
  · intro hcount
    exact ⟨b.contents, readAll_eq b.length_contents_lt, b.prints_contents, hcount⟩

/-- One character in a fresh ring is counted as 255. -/
theorem elementsInBuffer_miscounts :
    ¬ ∀ calls : List (QueueCall UInt8), (queue.run calls empty).2.CountsChars := by
  intro h
  obtain ⟨cs, hread, -, hcount⟩ := h [.put 65]
  have hcs : cs = [65] := (Except.ok.inj (hread.symm.trans rfl))
  have h255 : (queue.run [.put 65] empty).2.elementsInBuffer.toNat = 255 := rfl
  rw [h255, hcs] at hcount
  simp at hcount

end CharBuffer

end Floss
