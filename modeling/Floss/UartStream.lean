import Floss.Uart

/-!
# The Transmit Stream

The driver against a device whose flag register answers anything. Operations are atomic
with respect to each other: the main program calls a sender or signals that interrupts
are ready, or the interrupt handler runs, and each of them meets flag values, a raw
interrupt status and a received character of the device's choice (`Call`).

* `transmit_stream`: what was written to `DR` and then what is still buffered are
  submitted bytes, in order and each once; a byte is missing only if it was the oldest of
  63 pending ones when a further byte was buffered; and until interrupts are ready every
  call sends all it submits;
* `tx_mask_iff`: between calls `IMSC.TXIM` is set exactly while the buffer is not empty,
  and no call changes any other bit of the mask.

Both rest on `Effect`, one statement per operation of what it submits and preserves; the
effects of a sequence compose.
-/

namespace Floss

/-! ### The device and the calls -/

/-- A device that answers what it is told to: the values its flag register will show,
its raw interrupt status and the received character. It records what is written. -/
structure Answers where
  fr : List (BitVec 32)
  ris : BitVec 32
  imsc : BitVec 32
  rxData : UInt8
  dr : List UInt8

/-- How it answers. `MIS` is `RIS & IMSC`; when the flag values are used up, the driver
is still waiting. -/
def answering : Pl011 Answers where
  readFR hw :=
    match hw.fr with
    | [] => .error .fuel
    | v :: fr => .ok (v, { hw with fr := fr })
  readDR hw := .ok (hw.rxData, hw)
  writeDR c hw := .ok { hw with dr := hw.dr ++ [c] }
  readIMSC hw := .ok (hw.imsc, hw)
  writeIMSC v hw := .ok { hw with imsc := v }
  readMIS hw := .ok (hw.ris &&& hw.imsc, hw)
  writeICR _ hw := .ok hw

/-- The operations that reach the transmit path. -/
inductive UartOp
  | sendCharAsync (c : UInt8)
  | sendStrAsync (str : List UInt8)
  | signalIrqsReady
  | handleIrq
  deriving DecidableEq, Repr

/-- One operation and what the device answers while it runs. -/
structure Call where
  op : UartOp
  fr : List (BitVec 32)
  ris : BitVec 32
  rxData : UInt8
  fuel : ℕ

/-- Run one operation. -/
def Call.exec (call : Call) (u : Uart Answers) : Exec (Uart Answers) :=
  let u := { u with hw := { u.hw with fr := call.fr, ris := call.ris, rxData := call.rxData } }
  match call.op with
  | .sendCharAsync c => sendCharAsync answering call.fuel c u
  | .sendStrAsync str => sendStrAsync answering call.fuel str u
  | .signalIrqsReady => .ok (signalIrqsReady u)
  | .handleIrq => handleIrq answering call.fuel u

/-- The bytes a character is sent as. -/
def expand (c : UInt8) : List UInt8 := if c = 10 then [13, 10] else [c]

/-- The bytes `pl011_send_str_async` submits for a character: it sends `'\r'` before
`'\n'` itself, and so does `pl011_send_char_async`. -/
def expandStr (c : UInt8) : List UInt8 := (if c = 10 then expand 13 else []) ++ expand c

/-- The output of `print_buffer` for a ring that is not empty. -/
def printed (b : CharBuffer) : List UInt8 :=
  (cstr "Ring buffer content: ").flatMap expandStr ++ b.contents.flatMap expand ++ expand 10

/-- The bytes an operation submits when it is called in state `u`. -/
def Call.submits (call : Call) (u : Uart Answers) : List UInt8 :=
  match call.op with
  | .sendCharAsync c => expand c
  | .sendStrAsync str => (str.takeWhile (· ≠ 0)).flatMap expandStr
  | .signalIrqsReady => []
  | .handleIrq =>
    if call.ris &&& u.hw.imsc &&& misRx ≠ 0 then
      printed (u.rxBuffer.bufferChar call.rxData)
    else
      []

/-- Run a sequence of operations. -/
def runCalls (u : Uart Answers) (calls : List Call) : Exec (Uart Answers) :=
  calls.foldlM (fun u call => call.exec u) u

/-- The byte stream a sequence of operations submits. -/
def submitted : Uart Answers → List Call → List UInt8
  | _, [] => []
  | u, call :: calls =>
    call.submits u ++
      match call.exec u with
      | .ok u' => submitted u' calls
      | .error _ => []

/-! ### The device while characters are moved to it -/

/-- The device has received `cs`; mask, status and received character are as before. -/
structure Answers.Received (hw hw' : Answers) (cs : List UInt8) : Prop where
  dr : hw'.dr = hw.dr ++ cs
  imsc : hw'.imsc = hw.imsc
  ris : hw'.ris = hw.ris
  rxData : hw'.rxData = hw.rxData

/-- Nothing received, then more. -/
theorem Answers.Received.trans {hw hw' hw'' : Answers} {as bs : List UInt8}
    (h₁ : hw.Received hw' as) (h₂ : hw'.Received hw'' bs) : hw.Received hw'' (as ++ bs) where
  dr := by rw [h₂.dr, h₁.dr, List.append_assoc]
  imsc := h₂.imsc.trans h₁.imsc
  ris := h₂.ris.trans h₁.ris
  rxData := h₂.rxData.trans h₁.rxData

/-- A flag register read changes nothing but the answers to come. -/
theorem received_readFR {hw hw' : Answers} {fr : BitVec 32}
    (h : answering.readFR hw = .ok (fr, hw')) : hw.Received hw' [] := by
  simp only [answering] at h
  split at h
  · simp at h
  · simp only [Except.ok.injEq, Prod.mk.injEq] at h
    obtain ⟨-, rfl⟩ := h
    exact ⟨by simp, rfl, rfl, rfl⟩

/-- `pl011_drain_tx` moves a prefix of the buffer to the device. -/
theorem drainTx_received {u u' : Uart Answers} (h : drainTx answering u = .ok u') :
    ∃ cs, u.Moved u' cs ∧ u.hw.Received u'.hw cs := by
  refine drainLoop_spec (R := fun hw cs hw' => hw.Received hw' cs)
    (fun _ _ _ => received_readFR) ?_ (fun _ _ _ _ _ h₁ h₂ => h₁.trans h₂) h
  intro hw c hw' hdr
  simp only [answering, Except.ok.injEq] at hdr
  subst hdr
  exact ⟨rfl, rfl, rfl, rfl⟩

/-- Waiting for room receives nothing. -/
theorem waitPollTxComplete_received {n : ℕ} {hw hw' : Answers}
    (h : waitPollTxComplete answering n hw = .ok hw') : hw.Received hw' [] := by
  induction n generalizing hw with
  | zero => simp [waitPollTxComplete] at h
  | succ n ih =>
    rw [waitPollTxComplete] at h
    obtain ⟨⟨fr, hw₁⟩, hfr, h⟩ := bind_eq_ok.1 h
    dsimp only at h
    split at h
    · exact (received_readFR hfr).trans (ih h)
    · simp only [pure_eq_ok, Except.ok.injEq] at h
      subst h
      exact received_readFR hfr

/-- The synchronous drain ends with an empty buffer, all of it sent. -/
theorem syncDrain_received {wait n : ℕ} {u u' : Uart Answers}
    (h : syncDrain answering wait n u = .ok u') :
    ∃ cs, u.Moved u' cs ∧ u.hw.Received u'.hw cs ∧ u'.txBuffer.contents = [] := by
  induction n generalizing u with
  | zero => simp [syncDrain] at h
  | succ n ih =>
    rw [syncDrain] at h
    split at h
    · obtain ⟨hw, hwait, h⟩ := bind_eq_ok.1 h
      obtain ⟨v, hdrain, h⟩ := bind_eq_ok.1 h
      obtain ⟨as, hmoved, hrec⟩ := drainTx_received hdrain
      obtain ⟨bs, hmoved', hrec', hnil⟩ := ih h
      exact ⟨as ++ bs, ((u.moved_hw hw).trans hmoved).trans hmoved',
        ((waitPollTxComplete_received hwait).trans hrec).trans hrec', hnil⟩
    · rename_i hzero
      simp only [pure_eq_ok, Except.ok.injEq] at h
      subst h
      refine ⟨[], u.moved_hw u.hw, ⟨by simp, rfl, rfl, rfl⟩, ?_⟩
      exact CharBuffer.elementsInBuffer_eq_zero.1 (not_not.1 hzero)

/-! ### The mask -/

/-- `IMSC.TXIM` is set. -/
def Txim (u : Uart Answers) : Prop := u.hw.imsc &&& imscTximBit ≠ 0

/-- The mask after a toggle of the transmit bit. -/
def toggled (on : Bool) (imsc : BitVec 32) : BitVec 32 :=
  if on then imsc ||| imscTximBit else imsc &&& ~~~imscTximBit

/-- `pl011_toggle_tx_interrupts` writes one bit of the mask. -/
theorem toggleTxInterrupts_eq (on : Bool) (u : Uart Answers) :
    toggleTxInterrupts answering on u =
      .ok { u with hw := { u.hw with imsc := toggled on u.hw.imsc } } := rfl

/-- A bit that was written as one reads as one. -/
theorem or_and_self_bits (v bits : BitVec 32) : (v ||| bits) &&& bits = bits := by
  ext i
  simp +contextual

/-- The bit afterwards. -/
theorem toggled_bit (on : Bool) (imsc : BitVec 32) :
    toggled on imsc &&& imscTximBit ≠ 0 ↔ on = true := by
  cases on with
  | true =>
    rw [toggled, if_pos rfl, or_and_self_bits]
    simp [imscTximBit]
  | false =>
    have : imsc &&& ~~~imscTximBit &&& imscTximBit = 0 := by
      ext i
      simp
    simp [toggled, this]

/-- The other bits afterwards. -/
theorem toggled_others (on : Bool) (imsc : BitVec 32) :
    toggled on imsc &&& ~~~imscTximBit = imsc &&& ~~~imscTximBit := by
  cases on with
  | true =>
    ext i
    cases h : imscTximBit[i] <;> simp [toggled, h]
  | false =>
    ext i
    simp [toggled]

/-- The receive interrupt is masked as it was, whatever became of the transmit one. -/
theorem and_misRx_of_others {imsc imsc' : BitVec 32}
    (h : imsc' &&& ~~~imscTximBit = imsc &&& ~~~imscTximBit) :
    imsc' &&& misRx = imsc &&& misRx := by
  have hbits : ~~~imscTximBit &&& misRx = misRx := by decide
  rw [← hbits, ← BitVec.and_assoc, h, BitVec.and_assoc]

/-! ### What an operation does -/

/-- The buffer, the history and the device agree with the ledger of the history. -/
structure Tracks (u : Uart Answers) : Prop where
  queue : Replays 63 u.history u.txBuffer.contents
  dr : u.hw.dr = takes u.history

/-- The mask fits the buffer, and the buffer is empty until interrupts are ready. -/
structure MaskFits (u : Uart Answers) : Prop where
  mask : Txim u ↔ u.txBuffer.contents ≠ []
  sync : u.irqsReady = false → u.txBuffer.contents = []

/-- All that was submitted has been sent. -/
structure AllSent (u : Uart Answers) : Prop where
  empty : u.txBuffer.contents = []
  sent : u.hw.dr = puts u.history

/-- **What an operation does** on its way from `u` to `u'`: it submits `bytes`, and keeps
what the results need. Effects of operations one after the other compose. -/
structure Effect (bytes : List UInt8) (u u' : Uart Answers) : Prop where
  irqsReady : u'.irqsReady = u.irqsReady
  puts : puts u'.history = puts u.history ++ bytes
  tracks : Tracks u → Tracks u'
  mask : MaskFits u → MaskFits u'
  others : u'.hw.imsc &&& ~~~imscTximBit = u.hw.imsc &&& ~~~imscTximBit
  sync : u.irqsReady = false → AllSent u → AllSent u'

theorem Effect.refl (u : Uart Answers) : Effect [] u u :=
  ⟨rfl, by simp, id, id, rfl, fun _ => id⟩

theorem Effect.trans {as bs : List UInt8} {u v w : Uart Answers} (h₁ : Effect as u v)
    (h₂ : Effect bs v w) : Effect (as ++ bs) u w where
  irqsReady := h₂.irqsReady.trans h₁.irqsReady
  puts := by rw [h₂.puts, h₁.puts, List.append_assoc]
  tracks := h₂.tracks ∘ h₁.tracks
  mask := h₂.mask ∘ h₁.mask
  others := h₂.others.trans h₁.others
  sync hready hall := h₂.sync (h₁.irqsReady.trans hready) (h₁.sync hready hall)

/-- Moving characters to the device keeps the ledger. -/
theorem Tracks.moved {u u' : Uart Answers} {cs : List UInt8} (h : Tracks u)
    (hmoved : u.Moved u' cs) (hrec : u.hw.Received u'.hw cs) : Tracks u' where
  queue := by
    rw [hmoved.history]
    exact Replays.takeAll (hmoved.contents ▸ h.queue)
  dr := by rw [hrec.dr, hmoved.history, takes_append, takes_map_take, h.dr]

/-- Buffering a character keeps the ledger. -/
theorem Tracks.bufferTx {u : Uart Answers} (h : Tracks u) (c : UInt8) :
    Tracks (u.bufferTx c) where
  queue := by
    simp only [Uart.bufferTx, CharBuffer.contents_bufferChar]
    exact h.queue.put c
  dr := by simp [Uart.bufferTx, h.dr]

/-- A change of the mask keeps the ledger. -/
theorem Tracks.imsc {u : Uart Answers} (h : Tracks u) (v : BitVec 32) :
    Tracks { u with hw := { u.hw with imsc := v } } := ⟨h.queue, h.dr⟩

/-- From `u` to `v` the characters `bytes` have been buffered, and nothing else has
happened. -/
structure Buffered (bytes : List UInt8) (u v : Uart Answers) : Prop where
  irqsReady : v.irqsReady = u.irqsReady
  hw : v.hw = u.hw
  puts : puts v.history = puts u.history ++ bytes
  tracks : Tracks u → Tracks v
  contents : u.txBuffer.contents = [] → v.txBuffer.contents = bytes

theorem Buffered.refl (u : Uart Answers) : Buffered [] u u :=
  ⟨rfl, rfl, by simp, id, id⟩

/-- The buffering half of `pl011_send_char_async`. -/
def Uart.bufferExpanded (u : Uart Answers) (c : UInt8) : Uart Answers :=
  (if c = 10 then u.bufferTx 13 else u).bufferTx c

/-- It buffers the bytes the character is sent as. -/
theorem buffered_bufferExpanded (u : Uart Answers) (c : UInt8) :
    Buffered (expand c) u (u.bufferExpanded c) := by
  by_cases hc : c = 10
  · subst hc
    refine ⟨rfl, rfl, ?_, ?_, ?_⟩
    · simp only [Uart.bufferExpanded, if_true, Uart.bufferTx, puts_append, puts_put]
      rw [List.append_assoc]
      rfl
    · exact fun h => (h.bufferTx 13).bufferTx 10
    · intro hnil
      simp [Uart.bufferExpanded, Uart.bufferTx, CharBuffer.contents_bufferChar, hnil, expand]
  · have heq : u.bufferExpanded c = u.bufferTx c := by simp [Uart.bufferExpanded, hc]
    rw [heq]
    refine ⟨rfl, rfl, by simp [Uart.bufferTx, expand, hc], fun h => h.bufferTx c, ?_⟩
    intro hnil
    simp [Uart.bufferTx, CharBuffer.contents_bufferChar, hnil, expand, hc]

/-- From `u` to `v` the characters `bytes` have been buffered and the device has received
some; the mask is as it was. An empty buffer then means that all is sent, if it was
before. -/
structure Drained (bytes : List UInt8) (u v : Uart Answers) : Prop where
  irqsReady : v.irqsReady = u.irqsReady
  imsc : v.hw.imsc = u.hw.imsc
  puts : puts v.history = puts u.history ++ bytes
  tracks : Tracks u → Tracks v
  sent : v.txBuffer.contents = [] → AllSent u → AllSent v

/-- Buffer, then drain. -/
theorem Buffered.drained {bytes cs : List UInt8} {u v w : Uart Answers}
    (h : Buffered bytes u v) (hmoved : v.Moved w cs) (hrec : v.hw.Received w.hw cs) :
    Drained bytes u w := by
  have hputs : Floss.puts w.history = Floss.puts u.history ++ bytes := by
    rw [hmoved.history, puts_append, puts_map_take, List.append_nil, h.puts]
  refine ⟨hmoved.irqsReady.trans h.irqsReady, by rw [hrec.imsc, h.hw], hputs,
    fun ht => (h.tracks ht).moved hmoved hrec, fun hnil hall => ⟨hnil, ?_⟩⟩
  have hcs := hmoved.contents
  rw [h.contents hall.empty, hnil, List.append_nil] at hcs
  rw [hrec.dr, h.hw, hputs, hall.sent, hcs]

section Ends

variable {bytes : List UInt8} {u v : Uart Answers}

/-- After the drain the mask is switched to what the buffer needs. -/
theorem Drained.toggle (h : Drained bytes u v) {on : Bool}
    (hon : on = true ↔ v.txBuffer.contents ≠ [])
    (hempty : u.irqsReady = false → v.txBuffer.contents = []) :
    Effect bytes u { v with hw := { v.hw with imsc := toggled on v.hw.imsc } } where
  irqsReady := h.irqsReady
  puts := h.puts
  tracks ht := (h.tracks ht).imsc _
  mask _ := ⟨(toggled_bit _ _).trans hon, fun hoff => hempty (h.irqsReady ▸ hoff)⟩
  others := by simp only [toggled_others, h.imsc]
  sync hoff hall := ⟨hempty hoff, (h.sent (hempty hoff) hall).sent⟩

/-- After the drain the mask is right as it is. -/
theorem Drained.leave (h : Drained bytes u v)
    (hmask : MaskFits u → (Txim u ↔ v.txBuffer.contents ≠ []))
    (hempty : u.irqsReady = false → u.txBuffer.contents = [] → v.txBuffer.contents = []) :
    Effect bytes u v where
  irqsReady := h.irqsReady
  puts := h.puts
  tracks := h.tracks
  mask hfits := by
    refine ⟨?_, fun hoff => ?_⟩
    · rw [Txim, h.imsc]
      exact hmask hfits
    · rw [h.irqsReady] at hoff
      exact hempty hoff (hfits.sync hoff)
  others := by rw [h.imsc]
  sync hoff hall := h.sent (hempty hoff hall.empty) hall

end Ends

/-- **`pl011_send_char_async`**. -/
theorem sendCharAsync_effect {fuel : ℕ} {c : UInt8} {u u' : Uart Answers}
    (h : sendCharAsync answering fuel c u = .ok u') : Effect (expand c) u u' := by
  have hbuffered := buffered_bufferExpanded u c
  rw [sendCharAsync] at h
  obtain ⟨v, hdrain, h⟩ := bind_eq_ok.1 h
  obtain ⟨cs, hmoved, hrec⟩ := drainTx_received hdrain
  have hdrained : Drained (expand c) u v := hbuffered.drained hmoved hrec
  split at h
  · -- the inline drain emptied the buffer
    rename_i hzero
    have hnil := CharBuffer.elementsInBuffer_eq_zero.1 hzero
    rw [toggleTxInterrupts_eq, Except.ok.injEq] at h
    subst h
    exact hdrained.toggle (by simp [hnil]) fun _ => hnil
  · rename_i hzero
    have hne : v.txBuffer.contents ≠ [] :=
      fun hnil => hzero (CharBuffer.elementsInBuffer_eq_zero.2 hnil)
    split at h
    · -- the interrupt handler will send the rest
      rename_i hon
      rw [toggleTxInterrupts_eq, Except.ok.injEq] at h
      subst h
      refine hdrained.toggle (by simp [hne]) fun hoff => ?_
      rw [← hdrained.irqsReady, hon] at hoff
      simp at hoff
    · -- interrupts are not ready: the mask was off and the buffer empty before the call
      rename_i hready
      obtain ⟨bs, hmoved₂, hrec₂, hnil⟩ := syncDrain_received h
      have hall := hbuffered.drained (hmoved.trans hmoved₂) (hrec.trans hrec₂)
      refine hall.leave (fun hfits => ?_) fun _ _ => hnil
      have hu : u.txBuffer.contents = [] :=
        hfits.sync (by rw [← hdrained.irqsReady]; exact Bool.eq_false_iff.2 hready)
      rw [hfits.mask, hu, hnil]

/-- **`pl011_send_str_async`** sends up to the terminator. -/
theorem sendStrAsync_effect {fuel : ℕ} {str : List UInt8} {u u' : Uart Answers}
    (h : sendStrAsync answering fuel str u = .ok u') :
    Effect ((str.takeWhile (· ≠ 0)).flatMap expandStr) u u' := by
  induction str generalizing u with
  | nil =>
    simp only [sendStrAsync, Except.ok.injEq] at h
    subst h
    exact Effect.refl u
  | cons c str ih =>
    rw [sendStrAsync] at h
    split at h
    · rename_i hzero
      simp only [pure_eq_ok, Except.ok.injEq] at h
      subst h
      simpa [hzero] using Effect.refl u
    · rename_i hzero
      obtain ⟨v, hcr, h⟩ := bind_eq_ok.1 h
      obtain ⟨w, hchar, h⟩ := bind_eq_ok.1 h
      have hfirst : Effect (if c = 10 then expand 13 else []) u v := by
        split at hcr
        · rename_i hc
          rw [if_pos hc]
          exact sendCharAsync_effect hcr
        · rename_i hc
          rw [if_neg hc]
          rw [Except.ok.injEq] at hcr
          subst hcr
          exact Effect.refl u
      have hall := (hfirst.trans (sendCharAsync_effect hchar)).trans (ih h)
      simpa [hzero, expandStr] using hall

/-- Characters sent one by one. -/
theorem sendChars_effect {fuel : ℕ} {cs : List UInt8} {u u' : Uart Answers}
    (h : cs.foldlM (fun u c => sendCharAsync answering fuel c u) u = .ok u') :
    Effect (cs.flatMap expand) u u' := by
  induction cs generalizing u with
  | nil =>
    simp only [List.foldlM_nil, pure_eq_ok, Except.ok.injEq] at h
    subst h
    exact Effect.refl u
  | cons c cs ih =>
    rw [List.foldlM_cons] at h
    obtain ⟨v, hchar, h⟩ := bind_eq_ok.1 h
    simpa using (sendCharAsync_effect hchar).trans (ih h)

/-- **`print_buffer`** of a ring that is not empty. -/
theorem printBuffer_effect {fuel : ℕ} {b : CharBuffer} {u u' : Uart Answers}
    (hne : b.contents ≠ []) (h : printBuffer answering fuel b u = .ok u') :
    Effect (printed b) u u' := by
  have hheader : (cstr "Ring buffer content: ").takeWhile (· ≠ 0) =
      cstr "Ring buffer content: " := by decide
  rw [printBuffer_eq hne] at h
  obtain ⟨v, hstr, h⟩ := bind_eq_ok.1 h
  obtain ⟨w, hcontents, h⟩ := bind_eq_ok.1 h
  have h₁ := sendStrAsync_effect hstr
  rw [hheader] at h₁
  exact (h₁.trans (sendChars_effect hcontents)).trans (sendCharAsync_effect h)

/-- A change of the received side and of the answers to come submits nothing. -/
theorem effect_of_same {u u' : Uart Answers} (htx : u'.txBuffer = u.txBuffer)
    (hready : u'.irqsReady = u.irqsReady) (hhist : u'.history = u.history)
    (himsc : u'.hw.imsc = u.hw.imsc) (hdr : u'.hw.dr = u.hw.dr) : Effect [] u u' where
  irqsReady := hready
  puts := by rw [hhist, List.append_nil]
  tracks h := ⟨by rw [hhist, htx]; exact h.queue, by rw [hdr, hhist]; exact h.dr⟩
  mask h := by
    refine ⟨?_, fun hoff => ?_⟩
    · rw [Txim, himsc, htx]
      exact h.mask
    · rw [htx]
      exact h.sync (hready ▸ hoff)
  others := by rw [himsc]
  sync _ h := ⟨htx ▸ h.empty, by rw [hdr, hhist]; exact h.sent⟩

/-- **The transmit branch of `pl011_handle_irq`**, entered with `TXIM` set. -/
theorem handleTx_effect {u u' : Uart Answers} (htxim : Txim u)
    (h : handleTx answering u = .ok u') :
    Effect [] u u' ∧ u'.rxBuffer = u.rxBuffer ∧ u'.hw.rxData = u.hw.rxData := by
  rw [handleTx] at h
  obtain ⟨v, hdrain, h⟩ := bind_eq_ok.1 h
  obtain ⟨cs, hmoved, hrec⟩ := drainTx_received hdrain
  have hdrained : Drained [] u v := (Buffered.refl u).drained hmoved hrec
  split at h
  · rename_i hzero
    have hnil := CharBuffer.elementsInBuffer_eq_zero.1 hzero
    rw [toggleTxInterrupts_eq, Except.ok.injEq] at h
    subst h
    exact ⟨hdrained.toggle (by simp [hnil]) fun _ => hnil, hmoved.rxBuffer, hrec.rxData⟩
  · rename_i hzero
    have hne : v.txBuffer.contents ≠ [] :=
      fun hnil => hzero (CharBuffer.elementsInBuffer_eq_zero.2 hnil)
    rw [pure_eq_ok, Except.ok.injEq] at h
    subst h
    refine ⟨hdrained.leave (fun _ => iff_of_true htxim hne) fun _ hu => ?_,
      hmoved.rxBuffer, hrec.rxData⟩
    rw [hmoved.contents] at hu
    exact (List.append_eq_nil_iff.1 hu).2

/-- A transmit interrupt is masked in while `MIS` shows it. -/
theorem txim_of_mis {ris : BitVec 32} {u : Uart Answers}
    (h : ris &&& u.hw.imsc &&& misTx ≠ 0) : Txim u := by
  intro hzero
  apply h
  rw [BitVec.and_assoc]
  change ris &&& (u.hw.imsc &&& imscTximBit) = 0
  rw [hzero]
  exact BitVec.and_zero

/-- **What `pl011_handle_irq` goes through**: the state after the transmit branch, in which
nothing has been submitted or received, and then the receive branch if the device asks for
it and may. -/
theorem handleIrq_cases {fuel : ℕ} {u u' : Uart Answers}
    (h : handleIrq answering fuel u = .ok u') :
    ∃ v, (Effect [] u v ∧ v.rxBuffer = u.rxBuffer ∧ v.hw.rxData = u.hw.rxData) ∧
      if u.hw.ris &&& u.hw.imsc &&& misRx ≠ 0 then handleRx answering fuel v = .ok u'
      else v = u' := by
  rw [handleIrq] at h
  obtain ⟨⟨mis, hw⟩, hmis, h⟩ := bind_eq_ok.1 h
  obtain ⟨rfl, rfl⟩ : u.hw.ris &&& u.hw.imsc = mis ∧ u.hw = hw := by
    simpa [answering] using hmis
  obtain ⟨v, htx, h⟩ := bind_eq_ok.1 h
  obtain ⟨w, hrx, h⟩ := bind_eq_ok.1 h
  obtain rfl : w = u' := by simpa [answering] using h
  refine ⟨v, ?_, ?_⟩
  · split at htx
    · rename_i hbit
      exact handleTx_effect (txim_of_mis hbit) htx
    · rw [Except.ok.injEq] at htx
      subst htx
      exact ⟨Effect.refl _, rfl, rfl⟩
  · split at hrx
    · rename_i hbit
      rw [if_pos hbit]
      exact hrx
    · rename_i hbit
      rw [if_neg hbit]
      exact Except.ok.inj hrx

/-- A ring that has just been given a character has something to print. -/
theorem contents_bufferChar_ne_nil (b : CharBuffer) (c : UInt8) :
    (b.bufferChar c).contents ≠ [] := by
  rw [CharBuffer.contents_bufferChar]
  simp

/-- **`pl011_handle_irq`**. -/
theorem handleIrq_effect {fuel : ℕ} {u u' : Uart Answers}
    (h : handleIrq answering fuel u = .ok u') :
    Effect (if u.hw.ris &&& u.hw.imsc &&& misRx ≠ 0 then
      printed (u.rxBuffer.bufferChar u.hw.rxData) else []) u u' := by
  obtain ⟨v, ⟨heffect, hrxBuffer, hrxData⟩, hrx⟩ := handleIrq_cases h
  split at hrx
  · rename_i hbit
    rw [if_pos hbit, ← hrxBuffer, ← hrxData]
    have hread : Effect [] v { v with rxBuffer := v.rxBuffer.bufferChar v.hw.rxData } := by
      refine effect_of_same ?_ ?_ ?_ ?_ ?_ <;> rfl
    have hprint := printBuffer_effect (contents_bufferChar_ne_nil _ _) hrx
    exact heffect.trans (hread.trans hprint)
  · rename_i hbit
    rw [if_neg hbit, ← hrx]
    exact heffect

/-! ### Senders that return -/

/-- A drain returns once the flag register has answered as often as the loop may run. -/
theorem drainLoop_returns {n : ℕ} {u : Uart Answers} (hn : u.txBuffer.contents.length < n)
    (hfr : n ≤ u.hw.fr.length) :
    ∃ u', drainLoop answering n u = .ok u' ∧ u.hw.fr.length ≤ u'.hw.fr.length + n := by
  induction n generalizing u with
  | zero => omega
  | succ n ih =>
    obtain ⟨v, fr, hv⟩ := List.exists_cons_of_length_pos (by omega : 0 < u.hw.fr.length)
    have hread : answering.readFR u.hw = .ok (v, { u.hw with fr := fr }) := by
      simp only [answering, hv]
    rw [hv, List.length_cons] at hfr ⊢
    rw [drainLoop, hread, ok_bind]
    dsimp only
    split
    · rcases u.txBuffer.contents_readChar with ⟨hnone, -⟩ | ⟨c, tx, hsome, hcons⟩
      · exact ⟨_, by rw [hnone]; rfl, by dsimp only; omega⟩
      · rw [hcons, List.length_cons] at hn
        simp only [hsome]
        obtain ⟨u', hu', hleft⟩ := ih (u := { u with
          txBuffer := tx
          hw := { u.hw with fr := fr, dr := u.hw.dr ++ [c] }
          history := u.history ++ [.take c] }) (by dsimp only; omega) (by dsimp only; omega)
        exact ⟨u', hu', by dsimp only at hleft; omega⟩
    · exact ⟨_, rfl, by dsimp only; omega⟩

theorem drainTx_returns {u : Uart Answers} (hfr : bufferSize ≤ u.hw.fr.length) :
    ∃ u', drainTx answering u = .ok u' ∧ u.hw.fr.length ≤ u'.hw.fr.length + bufferSize :=
  drainLoop_returns u.txBuffer.length_contents_lt hfr

/-- With interrupts ready, `pl011_send_char_async` does not wait for the device. -/
theorem sendCharAsync_returns {u : Uart Answers} (hready : u.irqsReady = true)
    (hfr : bufferSize ≤ u.hw.fr.length) (fuel : ℕ) (c : UInt8) :
    ∃ u', sendCharAsync answering fuel c u = .ok u' ∧
      u.hw.fr.length ≤ u'.hw.fr.length + bufferSize := by
  have hbuffered := buffered_bufferExpanded u c
  obtain ⟨v, hv, hleft⟩ := drainTx_returns (u := u.bufferExpanded c) (by rwa [hbuffered.hw])
  rw [hbuffered.hw] at hleft
  obtain ⟨cs, hmoved, -⟩ := drainTx_received hv
  have hon : v.irqsReady = true := by rw [hmoved.irqsReady, hbuffered.irqsReady, hready]
  rw [sendCharAsync]
  change ∃ u', (drainTx answering (u.bufferExpanded c) >>= _) = .ok u' ∧ _
  rw [hv, ok_bind]
  by_cases hzero : v.txBuffer.elementsInBuffer = 0
  · rw [if_pos hzero]
    exact ⟨_, rfl, hleft⟩
  · rw [if_neg hzero, if_pos hon]
    exact ⟨_, rfl, hleft⟩

/-! ### Calls and runs -/

/-- **What a call does**: it submits its bytes, keeps the ledger and the fit of the mask,
and until interrupts are ready sends all it submits. Interrupts stay ready. -/
structure CallEffect (call : Call) (u u' : Uart Answers) : Prop where
  puts : puts u'.history = puts u.history ++ call.submits u
  tracks : Tracks u → Tracks u'
  mask : MaskFits u → MaskFits u'
  others : u'.hw.imsc &&& ~~~imscTximBit = u.hw.imsc &&& ~~~imscTximBit
  sync : u.irqsReady = false → AllSent u → AllSent u'
  notReady : u'.irqsReady = false → u.irqsReady = false

/-- The answers that the device has ready for a call are not part of what is kept. -/
theorem Effect.callEffect {call : Call} {u u' : Uart Answers}
    (h : Effect (call.submits u) { u with hw :=
      { u.hw with fr := call.fr, ris := call.ris, rxData := call.rxData } } u') :
    CallEffect call u u' := by
  have hanswers : Effect [] u { u with hw :=
      { u.hw with fr := call.fr, ris := call.ris, rxData := call.rxData } } := by
    refine effect_of_same ?_ ?_ ?_ ?_ ?_ <;> rfl
  have hall := hanswers.trans h
  exact ⟨hall.puts, hall.tracks, hall.mask, hall.others, hall.sync,
    fun hoff => hall.irqsReady ▸ hoff⟩

/-- **Every call** has its effect, one case per operation. -/
theorem exec_effect {call : Call} {u u' : Uart Answers} (h : call.exec u = .ok u') :
    CallEffect call u u' := by
  rw [Call.exec] at h
  cases hop : call.op with
  | sendCharAsync c =>
    rw [hop] at h
    refine Effect.callEffect ?_
    rw [Call.submits, hop]
    exact sendCharAsync_effect h
  | sendStrAsync str =>
    rw [hop] at h
    refine Effect.callEffect ?_
    rw [Call.submits, hop]
    exact sendStrAsync_effect h
  | handleIrq =>
    rw [hop] at h
    refine Effect.callEffect ?_
    rw [Call.submits, hop]
    exact handleIrq_effect h
  | signalIrqsReady =>
    rw [hop, Except.ok.injEq] at h
    subst h
    refine ⟨by simp [Call.submits, hop, signalIrqsReady], fun ht => ⟨ht.queue, ht.dr⟩,
      fun hm => ⟨hm.mask, fun hoff => ?_⟩, rfl, fun _ hall => ⟨hall.empty, hall.sent⟩,
      fun hoff => ?_⟩
    all_goals simp [signalIrqsReady] at hoff

/-- A sequence and one more operation. -/
theorem runCalls_snoc {u v w : Uart Answers} {calls : List Call} {call : Call}
    (h : runCalls u calls = .ok v) (hcall : call.exec v = .ok w) :
    runCalls u (calls ++ [call]) = .ok w ∧
      submitted u (calls ++ [call]) = submitted u calls ++ call.submits v := by
  constructor
  · rw [runCalls, foldlM_append_eq_ok]
    exact ⟨v, h, by simp [hcall]⟩
  · induction calls generalizing u with
    | nil =>
      obtain rfl : u = v := by simpa [runCalls] using h
      simp [submitted, hcall]
    | cons c cs ih =>
      rw [runCalls, List.foldlM_cons] at h
      obtain ⟨t, ht, h⟩ := bind_eq_ok.1 h
      rw [List.cons_append, submitted, submitted]
      simp only [ht]
      rw [ih h, List.append_assoc]

/-- An empty transmit buffer before interrupts are ready, nothing sent so far. -/
structure Fresh (u : Uart Answers) : Prop where
  empty : u.txBuffer.contents = []
  irqsReady : u.irqsReady = false
  dr : u.hw.dr = []
  history : u.history = []

/-- **What holds of every run**: the history is the submitted stream, the ledger is kept,
and until interrupts are ready everything is sent. -/
structure Streams (u₀ : Uart Answers) (calls : List Call) (u : Uart Answers) : Prop where
  run : runCalls u₀ calls = .ok u
  puts : puts u.history = submitted u₀ calls
  tracks : Tracks u
  sync : u.irqsReady = false → AllSent u

/-- One more operation. -/
theorem Streams.snoc {u₀ u u' : Uart Answers} {calls : List Call} {call : Call}
    (h : Streams u₀ calls u) (hcall : call.exec u = .ok u') :
    Streams u₀ (calls ++ [call]) u' := by
  have heffect := exec_effect hcall
  obtain ⟨hrun, hsub⟩ := runCalls_snoc h.run hcall
  refine ⟨hrun, by rw [hsub, heffect.puts, h.puts], heffect.tracks h.tracks, fun hoff => ?_⟩
  have hoff' := heffect.notReady hoff
  exact heffect.sync hoff' (h.sync hoff')

/-- Every sequence from a fresh state. -/
theorem streams_of_run {u₀ u : Uart Answers} {calls : List Call} (start : Fresh u₀)
    (run : runCalls u₀ calls = .ok u) : Streams u₀ calls u := by
  refine foldlM_invariant (Streams u₀) ?_ (fun _ _ _ _ _ _ h hcall => h.snoc hcall) run
  refine ⟨rfl, by rw [start.history]; rfl, ⟨?_, ?_⟩, fun _ => ⟨start.empty, ?_⟩⟩
  · rw [start.history, start.empty]
    exact replays_nil 63
  · rw [start.dr, start.history, takes_nil]
  · rw [start.dr, start.history, puts_nil]

/-! ### The results -/

/-- The bytes sent and buffered are those of `stream` that were not dropped. -/
structure StreamIntegrity (stream : List UInt8) (u : Uart Answers) : Prop where
  /-- the history is about the submitted stream and the bytes written to `DR` -/
  buffered : puts u.history = stream
  written : takes u.history = u.hw.dr
  /-- the pending bytes of its ledger are those in the buffer -/
  pending : u.txBuffer.contents.map some = (ledger 63 u.history).pending.map (stream[·]?)
  /-- in order and each once, and a byte is missing only if it was the oldest of 63
  pending ones when a further one was buffered -/
  kept : ∃ kept : List ℕ, kept.Pairwise (· < ·) ∧
    (u.hw.dr ++ u.txBuffer.contents).map some = kept.map (stream[·]?) ∧
    ∀ k < stream.length, k ∉ kept → ∃ pre c post, u.history = pre ++ .put c :: post ∧
      (ledger 63 pre).pending.length = 63 ∧ (ledger 63 pre).pending.head? = some k

/-- **Transmit stream integrity**. After any sequence of operations, under any answers of
the device with which they return, the bytes written to `DR` and then the bytes buffered
are submitted bytes in order, and only the oldest of 63 pending bytes is ever lost; and
a further operation that runs before interrupts are ready returns with the buffer empty
and all that was submitted sent. -/
theorem transmit_stream {u₀ u : Uart Answers} {calls : List Call} (start : Fresh u₀)
    (run : runCalls u₀ calls = .ok u) :
    StreamIntegrity (submitted u₀ calls) u ∧
      ∀ call u', u.irqsReady = false → call.exec u = .ok u' →
        u'.txBuffer.contents = [] ∧ u'.hw.dr = submitted u₀ (calls ++ [call]) := by
  have h := streams_of_run start run
  constructor
  · refine ⟨h.puts, h.tracks.dr.symm, ?_, ?_⟩
    · rw [← h.puts]
      exact h.tracks.queue.held
    · rw [← h.puts, h.tracks.dr]
      exact h.tracks.queue.kept
  · intro call u' hoff hcall
    have hall := (exec_effect hcall).sync hoff (h.sync hoff)
    exact ⟨hall.empty, by rw [hall.sent, (h.snoc hcall).puts]⟩

/-- The driver before anything is sent. -/
def idleUart : Uart Answers where
  rxBuffer := .empty
  txBuffer := .empty
  irqsReady := false
  hw := ⟨[], 0, imscRximBit, 0, []⟩
  history := []

/-- A letter with room for it, the ready signal, and a letter that has to wait. -/
def idleCalls : List Call :=
  [⟨.sendCharAsync 97, [0, 0], 0, 0, 0⟩, ⟨.signalIrqsReady, [], 0, 0, 0⟩,
    ⟨.sendCharAsync 98, [frTxff], 0, 0, 0⟩]

theorem transmit_stream_idle : ∃ u, runCalls idleUart idleCalls = .ok u ∧
    StreamIntegrity (submitted idleUart idleCalls) u ∧
      ∀ call u', u.irqsReady = false → call.exec u = .ok u' →
        u'.txBuffer.contents = [] ∧ u'.hw.dr = submitted idleUart (idleCalls ++ [call]) := by
  obtain ⟨u, hu⟩ : ∃ u, runCalls idleUart idleCalls = .ok u := ⟨_, rfl⟩
  exact ⟨u, hu, transmit_stream ⟨rfl, rfl, rfl, rfl⟩ hu⟩

/-- **The mask matches the buffer**. With `TXIM` off and the buffer empty at the start,
after any sequence of operations `TXIM` is set exactly while the buffer is not empty, and
every other bit of the mask is as it was. -/
theorem tx_mask_iff {u₀ u : Uart Answers} {calls : List Call} (hmask : ¬ Txim u₀)
    (hempty : u₀.txBuffer.contents = []) (run : runCalls u₀ calls = .ok u) :
    (Txim u ↔ u.txBuffer.contents ≠ []) ∧
      u.hw.imsc &&& ~~~imscTximBit = u₀.hw.imsc &&& ~~~imscTximBit := by
  have h : MaskFits u ∧ u.hw.imsc &&& ~~~imscTximBit = u₀.hw.imsc &&& ~~~imscTximBit := by
    refine foldlM_invariant (fun _ u => MaskFits u ∧
      u.hw.imsc &&& ~~~imscTximBit = u₀.hw.imsc &&& ~~~imscTximBit) ?_ ?_ run
    · exact ⟨⟨iff_of_false hmask (by simp [hempty]), fun _ => hempty⟩, rfl⟩
    · rintro - call - v w - ⟨hfits, hothers⟩ hcall
      have heffect := exec_effect hcall
      exact ⟨heffect.mask hfits, heffect.others.trans hothers⟩
  exact ⟨h.1.mask, h.2⟩

theorem tx_mask_iff_idle : ∃ u, runCalls idleUart idleCalls = .ok u ∧
    (Txim u ↔ u.txBuffer.contents ≠ []) ∧
      u.hw.imsc &&& ~~~imscTximBit = idleUart.hw.imsc &&& ~~~imscTximBit := by
  obtain ⟨u, hu⟩ : ∃ u, runCalls idleUart idleCalls = .ok u := ⟨_, rfl⟩
  exact ⟨u, hu, tx_mask_iff (fun h => h rfl) rfl hu⟩

end Floss
