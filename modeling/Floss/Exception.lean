import Floss.Kstdio

/-!
# The Interrupt Handler

The model of `Exception::irq_handler` (`src/exception.cpp`). The handler logs every
interrupt through `kprintf`, hence through the transmit buffer of the UART, before it looks
at what the interrupt is for. `CPU::id()` and `UART::intid()` are parameters.

* `irqHandler_effect`: a transmit interrupt submits the bytes of the log line, and nothing
  else;
* `irqHandler_keeps`: the bytes that were pending are written to `DR` or still buffered, in
  order, except for those that the log line pushes out of the full buffer.
-/

namespace Floss

/-- The registers of the generic timer that `Timer::set_timer` uses. -/
structure Timer where
  cntfrq : ℕ
  tval : ℕ
  deriving DecidableEq, Repr

/-- `Timer::set_timer`. -/
def Timer.setTimer (t : Timer) : Timer := { t with tval := t.cntfrq }

section Driver

variable {H : Type} (P : Pl011 H)

/-- `irq_handler`. Its result goes to `end_of_interrupt`. -/
def irqHandler (strings : UInt64 → List UInt8) (fuel : ℕ) (cpu : UInt64)
    (uartIntid intid : UInt32) (t : Timer) (u : Uart H) : Exec (UInt32 × Timer × Uart H) := do
  let u ← kprintf P strings fuel "IRQ INTID %d handled by %d\n" [intid.toUInt64, cpu] u
  if intid = 1022 ∨ intid = 1023 then
    return (intid, t, u)
  else if intid = 30 then
    let u ← kprintf P strings fuel "[%z] Generic Timer Interrupt (INTID %d)\n"
      [cpu, intid.toUInt64] u
    return (intid, t.setTimer, u)
  else if intid = uartIntid then
    let u ← handleIrq P fuel u
    return (intid, t, u)
  else
    let u ← kprintf P strings fuel "[%z] Unhandled interrupt with INTID: %d\n"
      [cpu, intid.toUInt64] u
    return (intid, t, u)

end Driver

/-! ### The log line -/

/-- The characters of the log line. -/
def irqText (intid : UInt32) (cpu : UInt64) : List UInt8 :=
  cstr "IRQ INTID " ++ intText (int.wrap intid.toUInt64.toNat) ++ cstr " handled by " ++
    intText (int.wrap cpu.toNat) ++ cstr "\n"

/-- The bytes it is sent as. -/
def irqLog (intid : UInt32) (cpu : UInt64) : List UInt8 := (irqText intid cpu).flatMap expand

/-- `kprintf` of the log line sends its characters. -/
theorem kprintf_irqText {H : Type} {P : Pl011 H} {strings : UInt64 → List UInt8} {fuel : ℕ}
    (intid : UInt32) (cpu : UInt64) (u : Uart H) :
    kprintf P strings fuel "IRQ INTID %d handled by %d\n" [intid.toUInt64, cpu] u =
      sendChars P fuel (irqText intid cpu) u := by
  have hformat : cstr "IRQ INTID %d handled by %d\n" =
      cstr "IRQ INTID " ++ ascii '%' :: ascii 'd' ::
        (cstr " handled by " ++ ascii '%' :: ascii 'd' :: (cstr "\n" ++ [])) := by decide
  rw [kprintf, hformat, vkprintf_literal (by decide) (by decide), irqText, List.append_assoc,
    List.append_assoc, List.append_assoc, sendChars_append]
  refine bind_congr fun u => ?_
  rw [convertsTo_d intid.toUInt64, sendChars_append]
  refine bind_congr fun u => ?_
  rw [vkprintf_literal (by decide) (by decide), sendChars_append]
  refine bind_congr fun u => ?_
  rw [convertsTo_d cpu, sendChars_append]
  refine bind_congr fun u => ?_
  rw [vkprintf_literal (by decide) (by decide)]
  exact bind_ok

/-! ### A transmit interrupt -/

/-- The raw status is the device's own. -/
theorem sendCharAsync_ris {fuel : ℕ} {c : UInt8} {u u' : Uart Answers}
    (h : sendCharAsync answering fuel c u = .ok u') : u'.hw.ris = u.hw.ris := by
  have hbuffered := buffered_bufferExpanded u c
  rw [sendCharAsync] at h
  obtain ⟨v, hdrain, h⟩ := bind_eq_ok.1 h
  obtain ⟨cs, -, hrec⟩ := drainTx_received hdrain
  have hv : v.hw.ris = u.hw.ris := by
    rw [hrec.ris]
    exact congrArg Answers.ris hbuffered.hw
  by_cases hzero : v.txBuffer.elementsInBuffer = 0
  · rw [if_pos hzero, toggleTxInterrupts_eq, Except.ok.injEq] at h
    subst h
    exact hv
  · rw [if_neg hzero] at h
    by_cases hon : v.irqsReady
    · rw [if_pos hon, toggleTxInterrupts_eq, Except.ok.injEq] at h
      subst h
      exact hv
    · rw [if_neg hon] at h
      obtain ⟨bs, -, hrec', -⟩ := syncDrain_received h
      exact hrec'.ris.trans hv

theorem sendChars_ris {fuel : ℕ} {cs : List UInt8} {u u' : Uart Answers}
    (h : sendChars answering fuel cs u = .ok u') : u'.hw.ris = u.hw.ris := by
  refine foldlM_invariant (fun _ v => v.hw.ris = u.hw.ris) rfl ?_ h
  intro _ c _ v w _ hv hchar
  exact (sendCharAsync_ris hchar).trans hv

/-- The handler is entered with `pending` in the transmit buffer; the record of what is put
there and what is written to `DR` starts here. -/
structure Entered (pending : List UInt8) (u : Uart Answers) : Prop where
  contents : u.txBuffer.contents = pending
  history : u.history = pending.map .put
  dr : u.hw.dr = []

/-- Of the bytes pending on entry a prefix has been written, possibly all and then others,
and the rest is still buffered, in order. -/
def KeepsPending (pending : List UInt8) (u : Uart Answers) : Prop :=
  (u.hw.dr <+: pending ∨ pending <+: u.hw.dr) ∧
    (pending.drop u.hw.dr.length).Sublist u.txBuffer.contents

/-- A stream of pending bytes and others that is written or buffered as a whole keeps the
pending ones. -/
theorem keepsPending_of_append {pending log : List UInt8} {u : Uart Answers}
    (h : u.hw.dr ++ u.txBuffer.contents = pending ++ log) : KeepsPending pending u := by
  have hdr : u.hw.dr <+: pending ++ log := h ▸ List.prefix_append _ _
  refine ⟨List.prefix_or_prefix_of_prefix hdr (List.prefix_append _ _), ?_⟩
  have hrest := congrArg (List.drop u.hw.dr.length) h
  rw [List.drop_left, List.drop_append] at hrest
  rw [hrest]
  exact List.sublist_append_left _ _

/-- Interrupts are ready, a transmit interrupt is raised, `pending` has been buffered, and
the device will not be ready for any of it. -/
def pendingUart (pending : List UInt8) (answers : ℕ) : Uart Answers where
  rxBuffer := .empty
  txBuffer := pending.foldl CharBuffer.bufferChar .empty
  irqsReady := true
  hw := ⟨List.replicate answers frTxff, misTx, imscTximBit, 0, []⟩
  history := pending.map .put

theorem entered_pendingUart {pending : List UInt8} (h : pending.length ≤ 63) (answers : ℕ) :
    Entered pending (pendingUart pending answers) := by
  refine ⟨?_, rfl, rfl⟩
  rw [pendingUart]
  dsimp only
  induction pending using List.reverseRecOn with
  | nil => rfl
  | append_singleton pending c ih =>
    rw [List.length_append, List.length_singleton] at h
    have hcontents := ih (by omega)
    rw [List.foldl_append, List.foldl_cons, List.foldl_nil, CharBuffer.contents_bufferChar,
      hcontents, if_neg (by omega)]

section Interrupt

variable {strings : UInt64 → List UInt8} {fuel : ℕ} {cpu : UInt64} {intid : UInt32} {t : Timer}
  {u : Uart Answers}

/-- With no character received, `pl011_handle_irq` is its transmit part. -/
theorem handleIrq_of_tx {v : Uart Answers} (hmis : u.hw.ris &&& u.hw.imsc &&& misRx = 0)
    (htx : (if u.hw.ris &&& u.hw.imsc &&& misTx ≠ 0 then handleTx answering u
      else .ok u) = .ok v) (fuel : ℕ) :
    ∃ u', handleIrq answering fuel u = .ok u' ∧ u'.hw.dr = v.hw.dr ∧
      u'.txBuffer = v.txBuffer := by
  have hread : answering.readMIS u.hw = .ok (u.hw.ris &&& u.hw.imsc, u.hw) := rfl
  rw [handleIrq, hread, ok_bind]
  dsimp only
  rw [htx, ok_bind, if_neg (not_not.mpr hmis), ok_bind]
  exact ⟨_, rfl, rfl, rfl⟩

/-- It does not wait for the device then. -/
theorem handleIrq_returns (hmis : u.hw.ris &&& u.hw.imsc &&& misRx = 0)
    (hfr : bufferSize ≤ u.hw.fr.length) (fuel : ℕ) :
    ∃ u', handleIrq answering fuel u = .ok u' := by
  have htx : ∃ v, (if u.hw.ris &&& u.hw.imsc &&& misTx ≠ 0 then handleTx answering u
      else .ok u) = .ok v := by
    by_cases hbit : u.hw.ris &&& u.hw.imsc &&& misTx ≠ 0
    · obtain ⟨v, hv, -⟩ := drainTx_returns hfr
      rw [if_pos hbit, handleTx, hv, ok_bind]
      by_cases hzero : v.txBuffer.elementsInBuffer = 0
      · rw [if_pos hzero]
        exact ⟨_, rfl⟩
      · rw [if_neg hzero]
        exact ⟨_, rfl⟩
    · rw [if_neg hbit]
      exact ⟨_, rfl⟩
  obtain ⟨v, hv⟩ := htx
  obtain ⟨u', hrun, -⟩ := handleIrq_of_tx hmis hv fuel
  exact ⟨u', hrun⟩

/-- **A transmit interrupt** returns and submits the log line. -/
theorem irqHandler_effect (hready : u.irqsReady = true)
    (h30 : intid ≠ 30) (h1022 : intid ≠ 1022) (h1023 : intid ≠ 1023)
    (hmis : u.hw.ris &&& u.hw.imsc &&& misRx = 0)
    (hfr : ((irqText intid cpu).length + 1) * bufferSize ≤ u.hw.fr.length) :
    ∃ u', irqHandler answering strings fuel cpu intid intid t u = .ok (intid, t, u') ∧
      Effect (irqLog intid cpu) u u' := by
  rw [Nat.add_mul, Nat.one_mul] at hfr
  have hroom : (irqText intid cpu).length * bufferSize ≤ u.hw.fr.length := by omega
  obtain ⟨v, hlog, hleft⟩ := sendChars_returns hready hroom fuel
  have heffect := sendChars_effect hlog
  have hmis' : v.hw.ris &&& v.hw.imsc &&& misRx = 0 := by
    rw [sendChars_ris hlog, BitVec.and_assoc, and_misRx_of_others heffect.others,
      ← BitVec.and_assoc]
    exact hmis
  obtain ⟨w, hirq⟩ := handleIrq_returns hmis' (by omega) fuel
  have htx := handleIrq_effect hirq
  rw [if_neg (not_not.mpr hmis')] at htx
  refine ⟨w, ?_, by simpa [irqLog] using heffect.trans htx⟩
  rw [irqHandler, kprintf_irqText, hlog, ok_bind, if_neg (by simp [h1022, h1023]), if_neg h30,
    if_pos rfl, hirq, ok_bind, pure_eq_ok]

/-- **Pending output in a transmit interrupt.** With interrupts ready, whatever the device
answers, the handler returns; the bytes it has written to `DR` and then those in the buffer
are the bytes pending on entry and then the log line, in order and each at most once. A byte
is missing only if it was the oldest of 63 when a byte of the log line was buffered, and
none is if there is room for the log line. -/
theorem irqHandler_keeps {pending : List UInt8} (entry : Entered pending u)
    (hready : u.irqsReady = true)
    (h30 : intid ≠ 30) (h1022 : intid ≠ 1022) (h1023 : intid ≠ 1023)
    (hmis : u.hw.ris &&& u.hw.imsc &&& misRx = 0)
    (hfr : ((irqText intid cpu).length + 1) * bufferSize ≤ u.hw.fr.length) :
    ∃ u', irqHandler answering strings fuel cpu intid intid t u = .ok (intid, t, u') ∧
      StreamIntegrity (pending ++ irqLog intid cpu) u' ∧
      (∀ pre c post, u'.history = pre ++ .put c :: post →
        (ledger 63 pre).pending.length = 63 →
          ∃ i, (puts pre).length = pending.length + i ∧ (irqLog intid cpu)[i]? = some c) ∧
      (pending.length + (irqLog intid cpu).length ≤ 63 → KeepsPending pending u') := by
  obtain ⟨u', hrun, heffect⟩ := irqHandler_effect hready h30 h1022 h1023 hmis hfr
  have hcap : pending.length ≤ 63 := by
    have := u.txBuffer.length_contents_lt
    rw [entry.contents, bufferSize] at this
    omega
  have htracks : Tracks u' := by
    refine heffect.tracks ⟨?_, ?_⟩
    · rw [entry.history, entry.contents]
      exact replays_map_put hcap
    · rw [entry.dr, entry.history]
      simp [takes]
  have hputs : puts u'.history = pending ++ irqLog intid cpu := by
    rw [heffect.puts, entry.history]
    simp [puts]
  refine ⟨u', hrun, ⟨hputs, htracks.dr.symm, ?_, ?_⟩, ?_, ?_⟩
  · rw [← hputs]
    exact htracks.queue.held
  · rw [← hputs, htracks.dr]
    exact htracks.queue.kept
  · intro pre c post hsplit hfull
    have hlen := length_pending_le 63 pre
    refine ⟨(puts pre).length - pending.length, by omega, ?_⟩
    have hc : (puts u'.history)[(puts pre).length]? = some c := by
      rw [hsplit, puts_append]
      simp [puts]
    rw [hputs, List.getElem?_append_right (by omega)] at hc
    exact hc
  · intro hshort
    have hlen : (puts u'.history).length ≤ 63 := by
      rw [hputs, List.length_append]
      exact hshort
    have hall : u'.hw.dr ++ u'.txBuffer.contents = pending ++ irqLog intid cpu := by
      rw [htracks.dr, htracks.queue.eq_puts hlen, hputs]
    exact keepsPending_of_append hall

end Interrupt

/-- One pending byte. -/
theorem irqHandler_keeps_one_byte :
    ∃ u', irqHandler answering (fun _ => []) 0 0 33 33 ⟨0, 0⟩
        (pendingUart [120] (((irqText 33 0).length + 1) * bufferSize)) =
          .ok (33, ⟨0, 0⟩, u') ∧ KeepsPending [120] u' := by
  have hentry : Entered [120] (pendingUart [120] (((irqText 33 0).length + 1) * bufferSize)) :=
    entered_pendingUart (by decide) _
  have hfr : ((irqText 33 0).length + 1) * bufferSize ≤
      (pendingUart [120] (((irqText 33 0).length + 1) * bufferSize)).hw.fr.length := by
    simp [pendingUart]
  have hmis : misTx &&& imscTximBit &&& misRx = 0 := by decide
  have hlog : [120].length + (irqLog 33 0).length ≤ 63 := by decide
  obtain ⟨u', hrun, -, -, hkeeps⟩ :=
    irqHandler_keeps hentry rfl (by decide) (by decide) (by decide) hmis hfr
  exact ⟨u', hrun, hkeeps hlog⟩

/-! ### A device that is not ready -/

/-- Nothing is moved to a device that is not ready. -/
theorem drainTx_stalled {u : Uart Answers} {fr : List (BitVec 32)}
    (hfr : u.hw.fr = frTxff :: fr) :
    drainTx answering u = .ok { u with hw := { u.hw with fr := fr } } := by
  have hread : answering.readFR u.hw = .ok (frTxff, { u.hw with fr := fr }) := by
    simp only [answering, hfr]
  have hfull : ¬ frTxff &&& frTxff = 0 := by decide
  rw [drainTx, bufferSize, drainLoop, hread, ok_bind]
  dsimp only
  rw [if_neg hfull, pure_eq_ok]

/-- The character joins the buffer, and nothing is written. -/
theorem sendCharAsync_stalled {u : Uart Answers} (hready : u.irqsReady = true)
    {fr : List (BitVec 32)} (hfr : u.hw.fr = frTxff :: fr) (fuel : ℕ) (c : UInt8) :
    ∃ u', sendCharAsync answering fuel c u = .ok u' ∧ u'.irqsReady = true ∧ u'.hw.fr = fr ∧
      u'.hw.dr = u.hw.dr ∧ c ∈ u'.txBuffer.contents := by
  have hbuffered := buffered_bufferExpanded u c
  have hdrain := drainTx_stalled (u := u.bufferExpanded c) (by rw [hbuffered.hw, hfr])
  have hmem : c ∈ (u.bufferExpanded c).txBuffer.contents := by
    rw [Uart.bufferExpanded, Uart.bufferTx]
    simp [CharBuffer.contents_bufferChar]
  have hon := hbuffered.irqsReady.trans hready
  have hdr : (u.bufferExpanded c).hw.dr = u.hw.dr := by rw [hbuffered.hw]
  rw [sendCharAsync]
  change ∃ u', (drainTx answering (u.bufferExpanded c) >>= _) = .ok u' ∧ _
  rw [hdrain, ok_bind]
  dsimp only
  by_cases hzero : (u.bufferExpanded c).txBuffer.elementsInBuffer = 0
  · rw [if_pos hzero]
    exact ⟨_, rfl, hon, rfl, hdr, hmem⟩
  · rw [if_neg hzero, if_pos hon]
    exact ⟨_, rfl, hon, rfl, hdr, hmem⟩

/-- Of characters sent one by one the last is in the buffer. -/
theorem sendChars_stalled {cs : List UInt8} {c : UInt8} {u : Uart Answers}
    (hready : u.irqsReady = true) {fr : List (BitVec 32)}
    (hfr : u.hw.fr = List.replicate (cs.length + 1) frTxff ++ fr) (fuel : ℕ) :
    ∃ u', sendChars answering fuel (cs ++ [c]) u = .ok u' ∧ u'.hw.fr = fr ∧
      u'.hw.dr = u.hw.dr ∧ c ∈ u'.txBuffer.contents := by
  induction cs generalizing u with
  | nil =>
    obtain ⟨u', hu', -, hrest⟩ := sendCharAsync_stalled hready hfr fuel c
    exact ⟨u', by simpa [sendChars] using hu', hrest⟩
  | cons d cs ih =>
    obtain ⟨v, hv, hon, hleft, hdr, -⟩ := sendCharAsync_stalled hready hfr fuel d
    obtain ⟨u', hu', hfr', hdr', hmem⟩ := ih hon hleft
    refine ⟨u', ?_, hfr', hdr'.trans hdr, hmem⟩
    rw [sendChars] at hu'
    rw [List.cons_append, sendChars, List.foldlM_cons, hv, ok_bind, hu']

/-- Nor does the interrupt handler write anything then. -/
theorem handleIrq_stalled {u : Uart Answers} {fr : List (BitVec 32)}
    (hfr : u.hw.fr = frTxff :: fr) (hmis : u.hw.ris &&& u.hw.imsc &&& misRx = 0) (fuel : ℕ) :
    ∃ u', handleIrq answering fuel u = .ok u' ∧ u'.hw.dr = u.hw.dr ∧
      u'.txBuffer = u.txBuffer := by
  have htx : ∃ v, (if u.hw.ris &&& u.hw.imsc &&& misTx ≠ 0 then handleTx answering u
      else .ok u) = .ok v ∧ v.hw.dr = u.hw.dr ∧ v.txBuffer = u.txBuffer := by
    by_cases hbit : u.hw.ris &&& u.hw.imsc &&& misTx ≠ 0
    · rw [if_pos hbit, handleTx, drainTx_stalled hfr, ok_bind]
      dsimp only
      by_cases hzero : u.txBuffer.elementsInBuffer = 0
      · rw [if_pos hzero]
        exact ⟨_, rfl, rfl, rfl⟩
      · rw [if_neg hzero]
        exact ⟨_, rfl, rfl, rfl⟩
    · rw [if_neg hbit]
      exact ⟨_, rfl, rfl, rfl⟩
  obtain ⟨v, hv, hdr, hbuffer⟩ := htx
  obtain ⟨u', hrun, hdr', hbuffer'⟩ := handleIrq_of_tx hmis hv fuel
  exact ⟨u', hrun, hdr'.trans hdr, hbuffer'.trans hbuffer⟩

/-- As much as the buffer holds. -/
def fullPending : List UInt8 := List.replicate 63 120

/-- **A full buffer.** The log line pushes pending bytes out of it. -/
theorem irqHandler_discards :
    ∃ u, Entered fullPending u ∧ u.irqsReady = true ∧ u.hw.ris &&& u.hw.imsc = misTx ∧
      ∃ u', irqHandler answering (fun _ => []) 0 0 33 33 ⟨0, 0⟩ u = .ok (33, ⟨0, 0⟩, u') ∧
        ¬ KeepsPending fullPending u' := by
  -- the log line is its characters and a newline
  obtain ⟨cs, hcs⟩ : ∃ cs, irqText 33 0 = cs ++ [10] := ⟨_, rfl⟩
  have hmis₀ : misTx &&& imscTximBit = misTx := by decide
  refine ⟨pendingUart fullPending (cs.length + 2), entered_pendingUart (by decide) _, rfl,
    hmis₀, ?_⟩
  have hfr : (pendingUart fullPending (cs.length + 2)).hw.fr =
      List.replicate (cs.length + 1) frTxff ++ [frTxff] := List.replicate_succ'
  obtain ⟨v, hlog, hleft, hdr, hmem⟩ := sendChars_stalled (c := 10) rfl hfr 0
  have hmis : v.hw.ris &&& v.hw.imsc &&& misRx = 0 := by
    have hris : v.hw.ris = misTx := sendChars_ris hlog
    rw [hris, BitVec.and_comm misTx, BitVec.and_assoc, (by decide : misTx &&& misRx = 0)]
    exact BitVec.and_zero
  obtain ⟨u', hirq, hdr', hbuffer⟩ := handleIrq_stalled hleft hmis 0
  refine ⟨u', ?_, ?_⟩
  · rw [irqHandler, kprintf_irqText, hcs, hlog, ok_bind, if_neg (by decide), if_neg (by decide),
      if_pos rfl, hirq, ok_bind, pure_eq_ok]
  · rintro ⟨-, hsub⟩
    have hnil : u'.hw.dr = [] := hdr'.trans hdr
    rw [hnil, hbuffer, List.length_nil, List.drop_zero] at hsub
    have hlen : v.txBuffer.contents.length ≤ fullPending.length :=
      Nat.lt_succ_iff.mp v.txBuffer.length_contents_lt
    rw [← hsub.eq_of_length_le hlen] at hmem
    exact absurd hmem (by decide)

end Floss
