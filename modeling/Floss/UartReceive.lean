import Mathlib.Data.List.DropRight
import Floss.UartStream

/-!
# Set-up and Reception

`UART::initialize` programs the line and unmasks the receive interrupt. From then on the
interrupt handler stores each received character and prints what the ring holds.

* `uartInitialize_lineReady`: the line after the set-up, and the clock frequencies for
  which the divisors are the ones the comment in `calculate_divisors` asks for: the
  product in front of the division is taken modulo `2 ^ 32`;
* `receive_stream`: after any sequence of calls the ring holds the last 63 characters
  received since the set-up, and what was submitted is a function of the calls and of the
  characters received before each of them (`echoed`); the driver's own state is not
  mentioned.

The first is about the registers one by one. The second is an induction on the calls with
one statement per call, `exec_receives`.
-/

namespace Floss

/-! ### The set-up -/

/-- The registers that the set-up alone uses. -/
structure LineRegs where
  cr : BitVec 32
  lcrH : BitVec 32
  ibrd : BitVec 32
  fbrd : BitVec 32
  dmacr : BitVec 32
  deriving DecidableEq

/-- `BAUD_RATE`. -/
def baudRate : BitVec 32 := 115200

def crRxe : BitVec 32 := 1 <<< 9
def crTxe : BitVec 32 := 1 <<< 8
def crUarten : BitVec 32 := 1 <<< 0
def lcrHFen : BitVec 32 := 1 <<< 4
def dmacrTxdmae : BitVec 32 := 1 <<< 1
def dmacrRxdmae : BitVec 32 := 1 <<< 0

/-- `calculate_divisors`: the integer part and the fractional part. -/
def calculateDivisors (uartClockFrequency : BitVec 32) : Exec (BitVec 32 × BitVec 32) := do
  kassert (uartClockFrequency ≠ 0) "precond\n"
  let div := 4 * uartClockFrequency / baudRate
  return ((div >>> 6) &&& 0xffff, div &&& 0x3f)

variable {H : Type} (P : Pl011 H)

/-- `pl011_toggle_rx_interrupts`. -/
def toggleRxInterrupts (on : Bool) (u : Uart H) : Exec (Uart H) :=
  toggleImscMask P on imscRximBit u

/-- `UART::initialize`. -/
def uartInitialize (fuel : ℕ) (uartClockFrequency : BitVec 32) (r : LineRegs) (u : Uart H) :
    Exec (LineRegs × Uart H) := do
  let r := { r with cr := r.cr &&& ~~~(crRxe ||| crTxe ||| crUarten) }
  let hw ← waitPollTxComplete P fuel u.hw
  let r := { r with lcrH := r.lcrH &&& ~~~lcrHFen }
  let (ibrd, fbrd) ← calculateDivisors uartClockFrequency
  let r := { r with ibrd := ibrd, fbrd := fbrd }
  -- the argument unmasks the receive interrupt, and leaves the others as they are
  let u ← toggleRxInterrupts P true { u with hw := hw }
  let r := { r with dmacr := r.dmacr &&& ~~~dmacrRxdmae }
  let r := { r with dmacr := r.dmacr &&& ~~~dmacrTxdmae }
  return ({ r with cr := r.cr ||| crRxe ||| crTxe ||| crUarten }, u)

/-! ### The line after the set-up -/

/-- Both directions and the device itself are enabled, the queues and both kinds of direct
memory access are off, and the divisor is what 32-bit arithmetic makes of the frequency. -/
structure LineReady (uartClockFrequency : BitVec 32) (r : LineRegs) : Prop where
  enabled : r.cr &&& (crRxe ||| crTxe ||| crUarten) = crRxe ||| crTxe ||| crUarten
  queues : r.lcrH &&& lcrHFen = 0
  direct : r.dmacr &&& (dmacrRxdmae ||| dmacrTxdmae) = 0
  divisor : 64 * r.ibrd.toNat + r.fbrd.toNat = 4 * uartClockFrequency.toNat % 2 ^ 32 / 115200

/-- The two parts of the divisor, put together. -/
theorem calculateDivisors_eq {f ibrd fbrd : BitVec 32}
    (h : calculateDivisors f = .ok (ibrd, fbrd)) :
    f ≠ 0 ∧ 64 * ibrd.toNat + fbrd.toNat = 4 * f.toNat % 2 ^ 32 / 115200 := by
  rw [calculateDivisors] at h
  obtain ⟨_, hf, h⟩ := bind_eq_ok.1 h
  obtain ⟨rfl, rfl⟩ : (4 * f / baudRate) >>> 6 &&& 0xffff = ibrd ∧
      4 * f / baudRate &&& 0x3f = fbrd := by simpa using h
  refine ⟨kassert_eq_ok.1 hf, ?_⟩
  have hdiv : (4 * f / baudRate).toNat = 4 * f.toNat % 2 ^ 32 / 115200 := by
    rw [BitVec.toNat_udiv, BitVec.toNat_mul]
    rfl
  have hint : ((4 * f / baudRate) >>> 6 &&& 0xffff).toNat =
      (4 * f / baudRate).toNat / 2 ^ 6 % 2 ^ 16 := by
    rw [BitVec.toNat_and, BitVec.toNat_ushiftRight, Nat.shiftRight_eq_div_pow]
    exact Nat.and_two_pow_sub_one_eq_mod _ 16
  have hfrac : (4 * f / baudRate &&& 0x3f).toNat = (4 * f / baudRate).toNat % 2 ^ 6 := by
    rw [BitVec.toNat_and]
    exact Nat.and_two_pow_sub_one_eq_mod _ 6
  rw [hint, hfrac, hdiv]
  omega

/-- The 32-bit divisor is the true one while the product fits. -/
theorem divisor_exact_iff (n : ℕ) :
    4 * n % 2 ^ 32 / 115200 = 64 * n / (16 * 115200) ↔ n < 2 ^ 30 := by
  have hsame : 64 * n / (16 * 115200) = 4 * n / 115200 := by omega
  rw [hsame]
  omega

/-- The set-up as a whole, on a device that answers. -/
theorem uartInitialize_eq {fuel : ℕ} {f : BitVec 32} {r r' : LineRegs} {u u' : Uart Answers}
    (h : uartInitialize answering fuel f r u = .ok (r', u')) :
    ∃ hw ibrd fbrd, u.hw.Received hw [] ∧ calculateDivisors f = .ok (ibrd, fbrd) ∧
      u' = { u with hw := { hw with imsc := hw.imsc ||| imscRximBit } } ∧
      r' = ⟨r.cr &&& ~~~(crRxe ||| crTxe ||| crUarten) ||| crRxe ||| crTxe ||| crUarten,
        r.lcrH &&& ~~~lcrHFen, ibrd, fbrd, r.dmacr &&& ~~~dmacrRxdmae &&& ~~~dmacrTxdmae⟩ := by
  rw [uartInitialize] at h
  obtain ⟨hw, hwait, h⟩ := bind_eq_ok.1 h
  obtain ⟨⟨ibrd, fbrd⟩, hdiv, h⟩ := bind_eq_ok.1 h
  obtain ⟨v, htoggle, h⟩ := bind_eq_ok.1 h
  obtain rfl : { u with hw := { hw with imsc := hw.imsc ||| imscRximBit } } = v := by
    simpa [toggleRxInterrupts, toggleImscMask, answering] using htoggle
  rw [pure_eq_ok, Except.ok.injEq, Prod.mk.injEq] at h
  exact ⟨hw, ibrd, fbrd, waitPollTxComplete_received hwait, hdiv, h.2.symm, h.1.symm⟩

/-- **The line is ready** when the set-up returns; it returns only for a known frequency.
The divisor is the one that the comment in the source asks for exactly for frequencies
below `2 ^ 30`. The receive interrupt is unmasked, no other mask bit has changed, and
nothing has been sent, buffered or received. -/
theorem uartInitialize_lineReady {fuel : ℕ} {f : BitVec 32} {r r' : LineRegs}
    {u u' : Uart Answers} (h : uartInitialize answering fuel f r u = .ok (r', u')) :
    f ≠ 0 ∧ LineReady f r' ∧
      (64 * r'.ibrd.toNat + r'.fbrd.toNat = 64 * f.toNat / (16 * 115200) ↔
        f.toNat < 2 ^ 30) ∧
      u'.hw.imsc = u.hw.imsc ||| imscRximBit ∧ u'.hw.dr = u.hw.dr ∧
      u'.txBuffer = u.txBuffer ∧ u'.rxBuffer = u.rxBuffer := by
  obtain ⟨hw, ibrd, fbrd, hrec, hdiv, rfl, rfl⟩ := uartInitialize_eq h
  obtain ⟨hf, hdivisor⟩ := calculateDivisors_eq hdiv
  refine ⟨hf, ⟨?_, ?_, ?_, hdivisor⟩, ?_, ?_, ?_, rfl, rfl⟩
  · dsimp only
    rw [BitVec.or_assoc, BitVec.or_assoc, ← BitVec.or_assoc crRxe]
    exact or_and_self_bits _ _
  · ext i
    simp
  · have hbits : ~~~dmacrRxdmae &&& ~~~dmacrTxdmae &&& (dmacrRxdmae ||| dmacrTxdmae) = 0 := by
      decide
    rw [BitVec.and_assoc r.dmacr, BitVec.and_assoc r.dmacr, hbits]
    exact BitVec.and_zero
  · dsimp only
    rw [hdivisor]
    exact divisor_exact_iff f.toNat
  · dsimp only
    rw [hrec.imsc]
  · simpa using hrec.dr

/-- A device that has just been reset, the receive interrupt masked. -/
def resetUart : Uart Answers := { idleUart with hw := ⟨[0], 0, 0, 0, []⟩ }

/-- The set-up with a clock of 24 MHz. -/
theorem uartInitialize_lineReady_reset : ∃ r' u',
    uartInitialize answering 1 24000000 ⟨crRxe ||| crTxe, 0, 0, 0, 0⟩ resetUart = .ok (r', u') ∧
      LineReady 24000000 r' ∧ 64 * r'.ibrd.toNat + r'.fbrd.toNat = 833 := by
  obtain ⟨⟨r', u'⟩, h⟩ : ∃ p, uartInitialize answering 1 24000000
    ⟨crRxe ||| crTxe, 0, 0, 0, 0⟩ resetUart = .ok p := ⟨_, rfl⟩
  obtain ⟨-, hready, hdivisor, -⟩ := uartInitialize_lineReady h
  exact ⟨r', u', h, hready, hdivisor.2 (by decide)⟩

/-! ### What a call receives -/

/-- `IMSC.RXIM` is set. -/
def Rxim (u : Uart Answers) : Prop := u.hw.imsc &&& imscRximBit = imscRximBit

/-- The character a call receives: the handler reads one if the device asks for it. -/
def Call.receives (call : Call) : List UInt8 :=
  if call.op = .handleIrq ∧ call.ris &&& misRx ≠ 0 then [call.rxData] else []

/-- What a call submits when `seen` has been received before it. A handler that receives
prints the last 63 characters, the one it has just received among them. -/
def Call.echoes (call : Call) (seen : List UInt8) : List UInt8 :=
  match call.op with
  | .sendCharAsync c => expand c
  | .sendStrAsync str => (str.takeWhile (· ≠ 0)).flatMap expandStr
  | .signalIrqsReady => []
  | .handleIrq =>
    if call.ris &&& misRx ≠ 0 then
      (cstr "Ring buffer content: ").flatMap expandStr ++
        ((seen ++ [call.rxData]).rtake 63).flatMap expand ++ expand 10
    else
      []

/-- What a sequence of calls submits when `seen` has been received before it. -/
def echoed : List UInt8 → List Call → List UInt8
  | _, [] => []
  | seen, call :: calls => call.echoes seen ++ echoed (seen ++ call.receives) calls

/-- The ring that holds the last 63 characters of `seen` holds the last 63 of `seen` and one
more once that is stored. -/
theorem contents_bufferChar_rtake {b : CharBuffer} {seen : List UInt8} (c : UInt8)
    (h : b.contents = seen.rtake 63) :
    (b.bufferChar c).contents = (seen ++ [c]).rtake 63 := by
  rw [CharBuffer.contents_bufferChar, h, List.rtake_concat_succ]
  congr 1
  rw [List.rtake, List.rtake, List.length_drop]
  split
  · rw [List.tail_drop]
    congr 1
    omega
  · congr 1
    omega

/-- A character is sent without a look at the receive buffer. -/
theorem sendCharAsync_rxBuffer {fuel : ℕ} {c : UInt8} {u u' : Uart Answers}
    (h : sendCharAsync answering fuel c u = .ok u') : u'.rxBuffer = u.rxBuffer := by
  rw [sendCharAsync] at h
  obtain ⟨v, hdrain, h⟩ := bind_eq_ok.1 h
  obtain ⟨cs, hmoved, -⟩ := drainTx_received hdrain
  have hv : v.rxBuffer = u.rxBuffer := by
    rw [hmoved.rxBuffer]
    dsimp only [Uart.bufferTx]
    split <;> rfl
  split at h
  · rw [toggleTxInterrupts_eq, Except.ok.injEq] at h
    subst h
    exact hv
  · split at h
    · rw [toggleTxInterrupts_eq, Except.ok.injEq] at h
      subst h
      exact hv
    · obtain ⟨bs, hmoved', -, -⟩ := syncDrain_received h
      exact hmoved'.rxBuffer.trans hv

theorem sendStrAsync_rxBuffer {fuel : ℕ} {str : List UInt8} {u u' : Uart Answers}
    (h : sendStrAsync answering fuel str u = .ok u') : u'.rxBuffer = u.rxBuffer := by
  induction str generalizing u with
  | nil =>
    rw [sendStrAsync, Except.ok.injEq] at h
    rw [h]
  | cons c str ih =>
    rw [sendStrAsync] at h
    split at h
    · rw [pure_eq_ok, Except.ok.injEq] at h
      rw [h]
    · obtain ⟨v, hcr, h⟩ := bind_eq_ok.1 h
      obtain ⟨w, hchar, h⟩ := bind_eq_ok.1 h
      have hv : v.rxBuffer = u.rxBuffer := by
        split at hcr
        · exact sendCharAsync_rxBuffer hcr
        · rw [Except.ok.injEq] at hcr
          rw [hcr]
      exact ((ih h).trans (sendCharAsync_rxBuffer hchar)).trans hv

theorem printBuffer_rxBuffer {fuel : ℕ} {b : CharBuffer} {u u' : Uart Answers}
    (hne : b.contents ≠ []) (h : printBuffer answering fuel b u = .ok u') :
    u'.rxBuffer = u.rxBuffer := by
  rw [printBuffer_eq hne] at h
  obtain ⟨v, hstr, h⟩ := bind_eq_ok.1 h
  obtain ⟨w, hcontents, h⟩ := bind_eq_ok.1 h
  have hw : w.rxBuffer = v.rxBuffer := by
    refine foldlM_invariant (fun _ w => w.rxBuffer = v.rxBuffer) rfl ?_ hcontents
    intro _ c _ t t' _ ht hchar
    exact (sendCharAsync_rxBuffer hchar).trans ht
  exact ((sendCharAsync_rxBuffer h).trans hw).trans (sendStrAsync_rxBuffer hstr)

/-- **The handler** stores a character when the device asks for it and may. -/
theorem handleIrq_rxBuffer {fuel : ℕ} {u u' : Uart Answers}
    (h : handleIrq answering fuel u = .ok u') :
    u'.rxBuffer = if u.hw.ris &&& u.hw.imsc &&& misRx ≠ 0 then
      u.rxBuffer.bufferChar u.hw.rxData else u.rxBuffer := by
  obtain ⟨v, ⟨-, hrxBuffer, hrxData⟩, hrx⟩ := handleIrq_cases h
  split at hrx
  · rename_i hbit
    rw [if_pos hbit, ← hrxBuffer, ← hrxData]
    exact printBuffer_rxBuffer (contents_bufferChar_ne_nil _ _) hrx
  · rename_i hbit
    rw [if_neg hbit, ← hrx, hrxBuffer]

/-! ### The received stream -/

/-- While `RXIM` is set, `MIS` shows what the device asks for. -/
theorem Rxim.mis {u : Uart Answers} (h : Rxim u) (ris : BitVec 32) :
    ris &&& u.hw.imsc &&& misRx = ris &&& misRx := by
  rw [BitVec.and_assoc]
  exact congrArg _ h

/-- **Every call** keeps `RXIM`, stores what it receives, and submits what follows from the
characters received so far. -/
theorem exec_receives {call : Call} {seen : List UInt8} {u u' : Uart Answers} (hrxim : Rxim u)
    (hseen : u.rxBuffer.contents = seen.rtake 63) (h : call.exec u = .ok u') :
    Rxim u' ∧ u'.rxBuffer.contents = (seen ++ call.receives).rtake 63 ∧
      call.submits u = call.echoes seen := by
  refine ⟨(and_misRx_of_others (exec_effect h).others).trans hrxim, ?_⟩
  rw [Call.exec] at h
  cases hop : call.op with
  | sendCharAsync c =>
    rw [hop] at h
    simp only [Call.receives, Call.submits, Call.echoes, hop, sendCharAsync_rxBuffer h]
    simpa using hseen
  | sendStrAsync str =>
    rw [hop] at h
    simp only [Call.receives, Call.submits, Call.echoes, hop, sendStrAsync_rxBuffer h]
    simpa using hseen
  | signalIrqsReady =>
    rw [hop, Except.ok.injEq] at h
    subst h
    simpa [Call.receives, Call.submits, Call.echoes, hop, signalIrqsReady] using hseen
  | handleIrq =>
    rw [hop] at h
    have hrx := handleIrq_rxBuffer h
    dsimp only at hrx
    rw [hrxim.mis] at hrx
    simp only [Call.receives, Call.submits, Call.echoes, hop, hrxim.mis, true_and]
    by_cases hbit : call.ris &&& misRx ≠ 0
    · have hstored := contents_bufferChar_rtake call.rxData hseen
      rw [if_pos hbit] at hrx ⊢
      rw [hrx, if_pos hbit, if_pos hbit, printed, hstored]
      exact ⟨rfl, rfl⟩
    · rw [if_neg hbit] at hrx ⊢
      rw [hrx, if_neg hbit, if_neg hbit, List.append_nil]
      exact ⟨hseen, rfl⟩

/-- Every sequence of calls, from any point on. -/
theorem runCalls_receives {calls : List Call} {seen : List UInt8} {u u' : Uart Answers}
    (hrxim : Rxim u) (hseen : u.rxBuffer.contents = seen.rtake 63)
    (run : runCalls u calls = .ok u') :
    u'.rxBuffer.contents = (seen ++ calls.flatMap Call.receives).rtake 63 ∧
      submitted u calls = echoed seen calls := by
  induction calls generalizing u seen with
  | nil =>
    obtain rfl : u = u' := by simpa [runCalls] using run
    simpa [submitted, echoed] using hseen
  | cons call calls ih =>
    rw [runCalls, List.foldlM_cons] at run
    obtain ⟨v, hcall, run⟩ := bind_eq_ok.1 run
    obtain ⟨hv, hstored, hsubmits⟩ := exec_receives hrxim hseen hcall
    obtain ⟨hcontents, hechoed⟩ := ih hv hstored run
    refine ⟨by rw [hcontents, List.flatMap_cons, List.append_assoc], ?_⟩
    simp only [submitted, echoed, hcall]
    rw [hsubmits, hechoed]

/-- **The received stream**. After the set-up and any sequence of calls, under any answers
of the device, the ring holds the last 63 characters received since the set-up; and what
the calls have submitted is determined by the calls and by what was received before each
of them. -/
theorem receive_stream {fuel : ℕ} {f : BitVec 32} {r r' : LineRegs} {u₀ u₁ u : Uart Answers}
    {calls : List Call} (hempty : u₀.rxBuffer.contents = [])
    (init : uartInitialize answering fuel f r u₀ = .ok (r', u₁))
    (run : runCalls u₁ calls = .ok u) :
    u.rxBuffer.contents = (calls.flatMap Call.receives).rtake 63 ∧
      submitted u₁ calls = echoed [] calls := by
  obtain ⟨hw, -, -, -, -, rfl, -⟩ := uartInitialize_eq init
  have hrxim : Rxim { u₀ with hw := { hw with imsc := hw.imsc ||| imscRximBit } } :=
    or_and_self_bits hw.imsc imscRximBit
  have hnil : u₀.rxBuffer.contents = List.rtake [] 63 := by rw [hempty, List.rtake_nil]
  have hall := runCalls_receives hrxim hnil run
  rw [List.nil_append] at hall
  exact hall

/-- The ready signal, and an interrupt for a received letter while there is no room to send. -/
def receivingCalls : List Call :=
  [⟨.signalIrqsReady, [], 0, 0, 0⟩, ⟨.handleIrq, List.replicate 23 frTxff, misRx, 97, 0⟩]

theorem receive_stream_reset : ∃ p u,
    uartInitialize answering 1 24000000 ⟨crRxe ||| crTxe, 0, 0, 0, 0⟩ resetUart = .ok p ∧
      runCalls p.2 receivingCalls = .ok u ∧ u.rxBuffer.contents = [97] ∧
      submitted p.2 receivingCalls = echoed [] receivingCalls := by
  obtain ⟨⟨r', u₁⟩, hinit, u, hu⟩ : ∃ p, uartInitialize answering 1 24000000
      ⟨crRxe ||| crTxe, 0, 0, 0, 0⟩ resetUart = .ok p ∧
      ∃ u, runCalls p.2 receivingCalls = .ok u := ⟨_, rfl, _, rfl⟩
  obtain ⟨hcontents, hsubmitted⟩ := receive_stream rfl hinit hu
  exact ⟨(r', u₁), u, hinit, hu, hcontents.trans rfl, hsubmitted⟩

end Floss
