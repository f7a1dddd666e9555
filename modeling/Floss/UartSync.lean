import Floss.UartStream

/-!
# Two Ways to Send a String

The synchronous senders write to `DR` themselves and wait for room after every byte; the
asynchronous ones go through the transmit buffer, which they empty before they return while
interrupts are not ready.

* `sendStrSync_received`: the synchronous string sender writes what `pl011_send_char_sync`
  writes for the characters one after the other;
* `senders_agree_iff`: the asynchronous one writes the same exactly for strings without a
  newline, since it expands a newline once more than the others.
-/

namespace Floss

/-! ### The synchronous senders -/

/-- Writing a byte is receiving it. -/
theorem received_writeDR {hw hw' : Answers} {c : UInt8}
    (h : answering.writeDR c hw = .ok hw') : hw.Received hw' [c] := by
  simp only [answering, Except.ok.injEq] at h
  subst h
  exact ⟨rfl, rfl, rfl, rfl⟩

theorem putSync_received {fuel : ℕ} {c : UInt8} {hw hw' : Answers}
    (h : putSync answering fuel c hw = .ok hw') : hw.Received hw' (expand c) := by
  rw [putSync] at h
  obtain ⟨hw₁, hcr, h⟩ := bind_eq_ok.1 h
  obtain ⟨hw₂, hdr, hwait⟩ := bind_eq_ok.1 h
  have hlast : hw₁.Received hw' [c] := by
    simpa using (received_writeDR hdr).trans (waitPollTxComplete_received hwait)
  by_cases hc : c = 10
  · rw [if_pos hc] at hcr
    obtain ⟨hw₀, hdr₀, hwait₀⟩ := bind_eq_ok.1 hcr
    have hfirst : hw.Received hw₁ [13] := by
      simpa using (received_writeDR hdr₀).trans (waitPollTxComplete_received hwait₀)
    rw [expand, if_pos hc, ← hc]
    exact hfirst.trans hlast
  · rw [if_neg hc, Except.ok.injEq] at hcr
    subst hcr
    rw [expand, if_neg hc]
    exact hlast

/-- **`pl011_send_char_sync`**. -/
theorem sendCharSync_received {fuel : ℕ} {c : UInt8} {hw hw' : Answers}
    (h : sendCharSync answering fuel c hw = .ok hw') : hw.Received hw' (expand c) := by
  obtain ⟨hw₁, hwait, hput⟩ := bind_eq_ok.1 h
  exact (waitPollTxComplete_received hwait).trans (putSync_received hput)

/-- Characters sent one by one. -/
theorem sendCharsSync_received {fuel : ℕ} {cs : List UInt8} {hw hw' : Answers}
    (h : cs.foldlM (fun hw c => sendCharSync answering fuel c hw) hw = .ok hw') :
    hw.Received hw' (cs.flatMap expand) := by
  induction cs generalizing hw with
  | nil =>
    simp only [List.foldlM_nil, pure_eq_ok, Except.ok.injEq] at h
    subst h
    exact ⟨by simp, rfl, rfl, rfl⟩
  | cons c cs ih =>
    rw [List.foldlM_cons] at h
    obtain ⟨hw₁, hchar, h⟩ := bind_eq_ok.1 h
    exact (sendCharSync_received hchar).trans (ih h)

theorem sendStrSyncLoop_received {fuel : ℕ} {str : List UInt8} {hw hw' : Answers}
    (h : sendStrSyncLoop answering fuel str hw = .ok hw') :
    hw.Received hw' ((str.takeWhile (· ≠ 0)).flatMap expand) := by
  induction str generalizing hw with
  | nil =>
    simp only [sendStrSyncLoop, Except.ok.injEq] at h
    subst h
    exact ⟨by simp, rfl, rfl, rfl⟩
  | cons c str ih =>
    rw [sendStrSyncLoop] at h
    by_cases hc : c = 0
    · rw [if_pos hc, pure_eq_ok, Except.ok.injEq] at h
      subst h
      exact ⟨by simp [hc], rfl, rfl, rfl⟩
    · rw [if_neg hc] at h
      obtain ⟨hw₁, hput, h⟩ := bind_eq_ok.1 h
      simpa [hc] using (putSync_received hput).trans (ih h)

/-- **`pl011_send_str_sync`** sends up to the terminator. -/
theorem sendStrSync_received {fuel : ℕ} {str : List UInt8} {hw hw' : Answers}
    (h : sendStrSync answering fuel str hw = .ok hw') :
    hw.Received hw' ((str.takeWhile (· ≠ 0)).flatMap expand) := by
  obtain ⟨hw₁, hwait, hloop⟩ := bind_eq_ok.1 h
  exact (waitPollTxComplete_received hwait).trans (sendStrSyncLoop_received hloop)

/-! ### Against the asynchronous one -/

/-- The asynchronous string sender writes one more byte for every newline. -/
theorem length_flatMap_expandStr (cs : List UInt8) :
    (cs.flatMap expandStr).length = (cs.flatMap expand).length + cs.count 10 := by
  induction cs with
  | nil => rfl
  | cons c cs ih =>
    by_cases hc : c = 10
    · simp only [List.flatMap_cons, List.length_append, ih, hc, List.count_cons_self, expandStr,
        expand, if_true]
      simp
      omega
    · simp only [List.flatMap_cons, List.length_append, ih, List.count_cons_of_ne hc,
        expandStr, hc, if_false, List.nil_append]
      omega

/-- Both expansions agree exactly on strings without a newline. -/
theorem flatMap_expandStr_eq_iff (cs : List UInt8) :
    cs.flatMap expandStr = cs.flatMap expand ↔ (10 : UInt8) ∉ cs := by
  constructor
  · intro h
    have hlen := length_flatMap_expandStr cs
    rw [h] at hlen
    exact List.count_eq_zero.mp (by omega)
  · intro h
    refine List.flatMap_congr fun c hc => ?_
    have hne : c ≠ 10 := fun h10 => h (h10 ▸ hc)
    rw [expandStr, if_neg hne, List.nil_append]

/-- **When the senders agree.** With an empty transmit buffer and interrupts not ready,
under any answers of the device with which the calls return: the bytes that the
asynchronous string sender, the synchronous one and `pl011_send_char_sync` for each
character write to `DR` are the same if and only if the string has no newline. -/
theorem senders_agree_iff {str : List UInt8} {fuel₁ fuel₂ fuel₃ : ℕ} {u u' : Uart Answers}
    {hw₂ hw₂' hw₃ hw₃' : Answers} (start : Fresh u) (hdr₂ : hw₂.dr = []) (hdr₃ : hw₃.dr = [])
    (hasync : sendStrAsync answering fuel₁ str u = .ok u')
    (hsync : sendStrSync answering fuel₂ str hw₂ = .ok hw₂')
    (hchars : (str.takeWhile (· ≠ 0)).foldlM
      (fun hw c => sendCharSync answering fuel₃ c hw) hw₃ = .ok hw₃') :
    (u'.hw.dr = hw₂'.dr ∧ hw₂'.dr = hw₃'.dr) ↔ (10 : UInt8) ∉ str.takeWhile (· ≠ 0) := by
  have heffect := sendStrAsync_effect hasync
  have hall : AllSent u := ⟨start.empty, by rw [start.dr, start.history, puts_nil]⟩
  have hasyncDr : u'.hw.dr = (str.takeWhile (· ≠ 0)).flatMap expandStr := by
    rw [(heffect.sync start.irqsReady hall).sent, heffect.puts, start.history, puts_nil,
      List.nil_append]
  have hsyncDr : hw₂'.dr = (str.takeWhile (· ≠ 0)).flatMap expand := by
    rw [(sendStrSync_received hsync).dr, hdr₂, List.nil_append]
  have hcharsDr : hw₃'.dr = (str.takeWhile (· ≠ 0)).flatMap expand := by
    rw [(sendCharsSync_received hchars).dr, hdr₃, List.nil_append]
  rw [hasyncDr, hsyncDr, hcharsDr, flatMap_expandStr_eq_iff]
  exact and_iff_left rfl

/-- A device that is always ready. -/
def readyAnswers : Answers :=
  { idleUart.hw with fr := List.replicate 8 0 }

/-- Two letters. -/
theorem senders_agree_letters :
    ∃ u' hw₂' hw₃',
      sendStrAsync answering 1 [97, 98, 0] { idleUart with hw := readyAnswers } = .ok u' ∧
      sendStrSync answering 1 [97, 98, 0] readyAnswers = .ok hw₂' ∧
      [97, 98].foldlM (fun hw c => sendCharSync answering 1 c hw) readyAnswers = .ok hw₃' ∧
      u'.hw.dr = hw₂'.dr ∧ hw₂'.dr = hw₃'.dr := by
  obtain ⟨u', hasync⟩ : ∃ u', sendStrAsync answering 1 [97, 98, 0]
      { idleUart with hw := readyAnswers } = .ok u' := ⟨_, rfl⟩
  obtain ⟨hw₂', hsync⟩ : ∃ hw, sendStrSync answering 1 [97, 98, 0] readyAnswers = .ok hw :=
    ⟨_, rfl⟩
  obtain ⟨hw₃', hchars⟩ : ∃ hw, [97, 98].foldlM (fun hw c => sendCharSync answering 1 c hw)
      readyAnswers = .ok hw := ⟨_, rfl⟩
  have hiff := senders_agree_iff ⟨rfl, rfl, rfl, rfl⟩ rfl rfl hasync hsync hchars
  exact ⟨u', hw₂', hw₃', hasync, hsync, hchars, hiff.mpr (by decide)⟩

/-- A newline is sent as two carriage returns and a line feed by the asynchronous string
sender, and with one carriage return by the others. -/
theorem senders_disagree_newline :
    ∃ u' hw₂' hw₃',
      sendStrAsync answering 1 [10, 0] { idleUart with hw := readyAnswers } = .ok u' ∧
      sendStrSync answering 1 [10, 0] readyAnswers = .ok hw₂' ∧
      [10].foldlM (fun hw c => sendCharSync answering 1 c hw) readyAnswers = .ok hw₃' ∧
      u'.hw.dr = [13, 13, 10] ∧ hw₂'.dr = [13, 10] ∧ hw₃'.dr = [13, 10] ∧
      ¬ (u'.hw.dr = hw₂'.dr ∧ hw₂'.dr = hw₃'.dr) :=
  ⟨_, _, _, rfl, rfl, rfl, rfl, rfl, rfl, by decide⟩

end Floss
