import Mathlib.Tactic.Abel
import Floss.CString
import Floss.LossyQueue

/-!
# The Character Ring

`UART::CharBuffer` is a ring of 64 slots with two indices. Characters are stored where
`_end` points and read where `_start` points; equal indices mean an empty ring, so that
at most 63 characters are held, and the 64th pushes the oldest one out.

* `CharBuffer`: the three members; the indices are slot numbers by their type;
* `CharBuffer.contents`: the characters held, oldest first;
* `contents_bufferChar`, `contents_readChar`: storing and reading on the contents;
* `elementsInBuffer_eq_zero`: the eight-bit count is zero exactly for the empty ring;
* `charBuffer_bounded_fifo`: the ring answers all calls as a bounded queue does.
-/

namespace Floss

/-- `CharBuffer::BufferSize`. -/
abbrev bufferSize : ℕ := 64

instance : NeZero bufferSize := ⟨by decide⟩

/-- `UART::CharBuffer`. The member `_end` is called `finish`. -/
structure CharBuffer where
  start : Fin bufferSize
  finish : Fin bufferSize
  ringBuffer : Fin bufferSize → UInt8
  deriving DecidableEq

namespace CharBuffer

/-- The constructor. -/
def empty : CharBuffer := ⟨0, 0, fun _ => 0⟩

/-- `buffer_char`. The sums of slot numbers are taken modulo `BufferSize`. -/
def bufferChar (b : CharBuffer) (c : UInt8) : CharBuffer :=
  let ringBuffer := Function.update b.ringBuffer b.finish c
  let finish := b.finish + 1
  if finish = b.start then
    -- leak one character
    ⟨b.start + 1, finish, ringBuffer⟩
  else
    ⟨b.start, finish, ringBuffer⟩

/-- `read_char`: the character, and the ring without it; nothing from an empty ring. -/
def readChar (b : CharBuffer) : Option (UInt8 × CharBuffer) :=
  if b.start = b.finish then
    none
  else
    some (b.ringBuffer b.start, { b with start := b.start + 1 })

/-- `elements_in_buffer`. The result is narrowed to eight bits; its callers only compare it
with zero. -/
def elementsInBuffer (b : CharBuffer) : UInt8 :=
  if b.start = b.finish then
    0
  else if b.start < b.finish then
    UInt8.ofNat b.start.val - UInt8.ofNat b.finish.val
  else
    UInt8.ofNat (bufferSize - b.start.val + b.finish.val + 1)

/-- The characters held, **oldest first**. -/
def contents (b : CharBuffer) : List UInt8 :=
  window b.ringBuffer b.start (b.finish - b.start).val

/-- How many characters are held. -/
theorem length_contents (b : CharBuffer) : b.contents.length = (b.finish - b.start).val :=
  length_window ..

/-- At most 63 characters are held. -/
theorem length_contents_lt (b : CharBuffer) : b.contents.length < bufferSize := by
  rw [length_contents]
  exact (b.finish - b.start).isLt

/-- The ring is empty when the indices are equal. -/
theorem contents_eq_nil {b : CharBuffer} : b.contents = [] ↔ b.start = b.finish := by
  rw [← List.length_eq_zero_iff, length_contents, Fin.val_eq_zero_iff, sub_eq_zero, eq_comm]

/-- The slot behind the characters held is the one `_end` points at. -/
theorem finish_eq (b : CharBuffer) :
    b.finish = b.start + Fin.ofNat bufferSize (b.finish - b.start).val := by
  rw [Fin.ofNat_val_eq_self, add_sub_cancel]

/-- **Storing**: the new character comes last, and the 64th pushes the oldest one out. -/
theorem contents_bufferChar (b : CharBuffer) (c : UInt8) :
    (b.bufferChar c).contents =
      (if b.contents.length = 63 then b.contents.tail else b.contents) ++ [c] := by
  have hgrow : window (Function.update b.ringBuffer b.finish c) b.start
      ((b.finish - b.start).val + 1) = b.contents ++ [c] := by
    rw [window_snoc, ← finish_eq, Function.update_self]
    nth_rewrite 1 [b.finish_eq]
    rw [window_update _ _ (b.finish - b.start).isLt, contents]
  rw [length_contents]
  by_cases hfull : b.finish + 1 = b.start
  · -- the ring is full: one character more, and the first one gone
    have hlen : (b.finish - b.start).val = 63 := by
      rw [← hfull]
      simp
    have hne : b.contents ≠ [] := by
      rw [← List.length_pos_iff, length_contents, hlen]
      norm_num
    rw [if_pos hlen]
    have htail := congrArg List.tail hgrow
    rw [window_cons, List.tail_cons, List.tail_append_of_ne_nil hne] at htail
    rw [← htail]
    simp [bufferChar, hfull, contents, hlen]
  · have hlen : (b.finish - b.start).val ≠ 63 := by
      intro h
      apply hfull
      have : b.finish - b.start = -1 := Fin.ext h
      rw [sub_eq_iff_eq_add.1 this]
      abel
    have hlt : (b.finish - b.start).val + 1 < 64 := by
      have : (b.finish - b.start).val < 64 := (b.finish - b.start).isLt
      omega
    have hsucc : (b.finish + 1 - b.start).val = (b.finish - b.start).val + 1 := by
      rw [add_sub_right_comm, Fin.val_add]
      exact Nat.mod_eq_of_lt hlt
    rw [if_neg hlen, ← hgrow]
    simp [bufferChar, hfull, contents, hsucc]

/-- **Reading**: nothing from an empty ring, else the oldest character. -/
theorem contents_readChar (b : CharBuffer) :
    (b.readChar = none ∧ b.contents = []) ∨
      ∃ c b', b.readChar = some (c, b') ∧ b.contents = c :: b'.contents := by
  by_cases h : b.start = b.finish
  · exact .inl ⟨by simp [readChar, h], contents_eq_nil.2 h⟩
  · refine .inr ⟨_, _, by simp [readChar, h]; exact ⟨rfl, rfl⟩, ?_⟩
    have hpos : (b.finish - b.start).val ≠ 0 := by
      rw [Ne, Fin.val_eq_zero_iff, sub_eq_zero]
      exact fun he => h he.symm
    have hpred : (b.finish - (b.start + 1)).val + 1 = (b.finish - b.start).val := by
      have : b.finish - (b.start + 1) = b.finish - b.start - 1 := by abel
      rw [this, Fin.val_sub_one_of_ne_zero]
      · omega
      · exact fun he => hpos (by simp [he])
    rw [contents, ← hpred, window_cons]
    rfl

/-- **The count is zero exactly for the empty ring**. -/
theorem elementsInBuffer_eq_zero {b : CharBuffer} :
    b.elementsInBuffer = 0 ↔ b.contents = [] := by
  have hs : b.start.val < 64 := b.start.isLt
  have hf : b.finish.val < 64 := b.finish.isLt
  rw [contents_eq_nil, elementsInBuffer]
  split
  · simp [*]
  · rename_i hne
    refine iff_of_false (fun h => ?_) hne
    have hne' : b.start.val ≠ b.finish.val := fun h => hne (Fin.ext h)
    split at h
    · rename_i hlt
      have hlt : b.start.val < b.finish.val := hlt
      have := congrArg UInt8.toNat h
      rw [UInt8.toNat_sub, UInt8.toNat_ofNat', UInt8.toNat_ofNat', UInt8.toNat_zero] at this
      omega
    · have hsize : bufferSize = 64 := rfl
      have := congrArg UInt8.toNat h
      rw [UInt8.toNat_ofNat', UInt8.toNat_zero] at this
      omega

/-- The ring as a queue of characters. -/
def queue : Queue UInt8 CharBuffer := ⟨bufferChar, readChar⟩

/-- **The ring is a bounded queue**: on every sequence of `buffer_char` and `read_char`
calls, a fresh ring answers as a queue of at most 63 characters that forgets its oldest. -/
theorem charBuffer_bounded_fifo (calls : List (QueueCall UInt8)) :
    (queue.run calls empty).1 = ((Fifo.queue UInt8 63).run calls Fifo.nil).1 := by
  have hsim : queue.Simulates (Fifo.queue UInt8 63) fun b q => b.contents = q.elems :=
    Fifo.simulates_queue contents_bufferChar contents_readChar
  exact (hsim.run calls (contents_eq_nil.2 rfl)).1

end CharBuffer

end Floss
