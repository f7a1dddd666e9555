import Floss.UartStream
import Floss.Numerals

/-!
# Formatted Output

The model of `src/kstdio.cpp`, on top of the asynchronous senders of the UART driver.

`kprintf_print_number` is a template. Its number is an integer here, and the type `T` of
the instance, `int` or `uint64_t`, says how a result that leaves the type comes back into
it (`IntType.wrap`); division and remainder round towards zero. A store past the end of
`number_buf` stops the run.

A `va_list` is a list of 64-bit slots; an `int` is the low half of its slot, whatever the
other half holds. The strings that pointers lead to are a parameter.

* `unsigned_numbers_print`: `%z` and `%p` send the canonical numeral of every number;
* `signed_number_prints_iff`: so does `%d`, except for the smallest `int`.
-/

namespace Floss

/-! ### Numbers -/

/-- An integer type of the program: its width, and whether it is signed. -/
structure IntType where
  bits : ℕ
  signed : Bool
  deriving DecidableEq, Repr

/-- The value of the type that an integer becomes. -/
def IntType.wrap (T : IntType) (x : ℤ) : ℤ :=
  if T.signed then x.bmod (2 ^ T.bits) else x % 2 ^ T.bits

def int : IntType := ⟨32, true⟩

def uint64 : IntType := ⟨64, false⟩

def numberBufSize : ℕ := 20

/-- The code of an ASCII character. -/
def ascii (c : Char) : UInt8 := UInt8.ofNat c.toNat

section Driver

variable {H : Type} (P : Pl011 H)

/-- The digit loop of `kprintf_print_number`. `number_buf` is what has been stored so far,
and `max_idx` its length; the bound is not reached, since the store comes first. -/
def digitLoop (base : ℤ) : (bound : ℕ) → (number : ℤ) → List UInt8 → Exec (List UInt8)
  | 0, _, _ => .error .fuel
  | bound + 1, number, numberBuf => do
      if number ≠ 0 then
        let remainder := number.tmod base
        inBounds numberBuf.length numberBufSize
        let c := if remainder < 10 then (ascii '0').toNat + remainder
          else (ascii 'a').toNat + remainder - 10
        digitLoop base bound (number.tdiv base) (numberBuf ++ [UInt8.ofInt c])
      else
        return numberBuf

/-- Send characters one by one. -/
def sendChars (fuel : ℕ) (cs : List UInt8) (u : Uart H) : Exec (Uart H) :=
  cs.foldlM (fun u c => sendCharAsync P fuel c u) u

/-- `kprintf_print_number<T>`. -/
def kprintfPrintNumber (T : IntType) (fuel : ℕ) (number base : ℤ) (u : Uart H) :
    Exec (Uart H) := do
  if number = 0 then
    sendCharAsync P fuel (ascii '0') u
  else
    let u ← (if number < 0 then sendCharAsync P fuel (ascii '-') u else .ok u)
    let number := if number < 0 then T.wrap (number * -1) else number
    let numberBuf ← digitLoop base (numberBufSize + 1) number []
    sendChars P fuel numberBuf.reverse u

/-! ### Formats -/

/-- `va_arg`: the next slot and the ones after it. A slot that was not passed is outside
the arguments. -/
def vaArg : List UInt64 → Exec (UInt64 × List UInt64)
  | [] => .error (.bounds 0 0)
  | slot :: args => .ok (slot, args)

/-- One conversion of `vkprintf`: the arguments that are left and the driver after it. A
specifier that is not known prints nothing. -/
def convert (strings : UInt64 → List UInt8) (fuel : ℕ) (specifier : UInt8)
    (args : List UInt64) (u : Uart H) : Exec (List UInt64 × Uart H) := do
  if specifier = ascii 'd' then
    let (slot, args) ← vaArg args
    return (args, ← kprintfPrintNumber P int fuel (int.wrap slot.toNat) 10 u)
  else if specifier = ascii 'z' then
    let (slot, args) ← vaArg args
    return (args, ← kprintfPrintNumber P uint64 fuel slot.toNat 10 u)
  else if specifier = ascii 's' then
    let (slot, args) ← vaArg args
    let str := if slot ≠ 0 then strings slot else cstr "(null)"
    return (args, ← sendStrAsync P fuel str u)
  else if specifier = ascii 'p' then
    let (slot, args) ← vaArg args
    let u ← sendStrAsync P fuel (cstr "0x") u
    return (args, ← kprintfPrintNumber P uint64 fuel slot.toNat 16 u)
  else if specifier = ascii 'c' then
    let (slot, args) ← vaArg args
    return (args, ← sendCharAsync P fuel (UInt8.ofNat slot.toNat) u)
  else
    return (args, u)

/-- `vkprintf`. The list is what stands in memory from `format` on. A `%` right before the
terminator prints nothing. -/
def vkprintf (strings : UInt64 → List UInt8) (fuel : ℕ) :
    (format : List UInt8) → (args : List UInt64) → Uart H → Exec (Uart H)
  | [], _, u => .ok u
  | c :: format, args, u => do
      if c = 0 then
        return u
      else if c = ascii '%' then
        match format with
        | [] => return u
        | specifier :: rest =>
            if specifier ≠ 0 then
              let (args, u) ← convert P strings fuel specifier args u
              vkprintf strings fuel rest args u
            else
              return u
      else
        let u ← sendCharAsync P fuel c u
        vkprintf strings fuel format args u

/-- `kprintf` of a literal. -/
def kprintf (strings : UInt64 → List UInt8) (fuel : ℕ) (format : String)
    (args : List UInt64) (u : Uart H) : Exec (Uart H) :=
  vkprintf P strings fuel (cstr format) args u

end Driver

/-! ### What is printed for a number -/

section Printed

variable {H : Type} {P : Pl011 H}

/-- The character stored for a remainder. -/
theorem ofInt_digit {r : ℕ} (h : r < 16) :
    UInt8.ofInt (if (r : ℤ) < 10 then (ascii '0').toNat + (r : ℤ)
      else (ascii 'a').toNat + (r : ℤ) - 10) = digitChar r := by
  revert r
  decide

/-- **The digit loop** stores the digits of a number that is not negative, least significant
first, as long as they fit. -/
theorem digitLoop_eq {b : ℕ} (hb : 1 < b) (hb' : b ≤ 16) {bound k : ℕ} {buf : List UInt8}
    (hroom : buf.length + (b.digits k).length ≤ numberBufSize)
    (hbound : (b.digits k).length < bound) :
    digitLoop b bound k buf = .ok (buf ++ (b.digits k).map digitChar) := by
  induction bound generalizing k buf with
  | zero => omega
  | succ bound ih =>
    by_cases hk : k = 0
    · simp [digitLoop, hk]
    · have hdigits := Nat.digits_eq_cons_digits_div hb hk
      rw [hdigits, List.length_cons] at hroom hbound
      have hrem : (k : ℤ).tmod b = (k % b : ℕ) := (Int.ofNat_tmod k b).symm
      have hquot : (k : ℤ).tdiv b = (k / b : ℕ) := (Int.ofNat_tdiv k b).symm
      have hlt : k % b < 16 := Nat.lt_of_lt_of_le (Nat.mod_lt k (by omega)) hb'
      rw [digitLoop, if_pos (by exact_mod_cast hk)]
      simp only [hrem, hquot, inBounds_of (by omega : buf.length < numberBufSize), ok_bind,
        ofInt_digit hlt]
      rw [ih (by rw [List.length_append, List.length_singleton]; omega) (by omega), hdigits]
      simp

/-- A 64-bit number fits into the buffer, in decimal to its last slot. -/
theorem lt_pow_numberBufSize {k b : ℕ} (hk : k < 2 ^ 64) (hb : 10 ≤ b) :
    k < b ^ numberBufSize :=
  calc k < 2 ^ 64 := hk
    _ ≤ 10 ^ numberBufSize := by norm_num [numberBufSize]
    _ ≤ b ^ numberBufSize := Nat.pow_le_pow_left hb _

/-- The digit loop of a 64-bit number, from its start. -/
theorem digitLoop_start {b : ℕ} (hb : 10 ≤ b) (hb' : b ≤ 16) {k : ℕ} (hk : k < 2 ^ 64) :
    digitLoop b (numberBufSize + 1) k [] = .ok ((b.digits k).map digitChar) := by
  have hlen : (b.digits k).length ≤ numberBufSize :=
    (Nat.digits_length_le_iff (by omega) k).mpr (lt_pow_numberBufSize hk hb)
  exact digitLoop_eq (by omega) hb' (by simpa using hlen) (by omega)

/-- Numbers that are not negative are printed as their numeral. -/
theorem kprintfPrintNumber_natCast {b : ℕ} (hb : 10 ≤ b) (hb' : b ≤ 16) {k : ℕ}
    (hk : k < 2 ^ 64) (T : IntType) (fuel : ℕ) (u : Uart H) :
    kprintfPrintNumber P T fuel k b u = sendChars P fuel (numeral b k) u := by
  by_cases h0 : k = 0
  · subst h0
    simp [kprintfPrintNumber, sendChars, numeral, ascii]
  · have hneg : ¬ (k : ℤ) < 0 := by omega
    rw [kprintfPrintNumber, if_neg (by exact_mod_cast h0)]
    simp only [if_neg hneg, ok_bind, digitLoop_start hb hb' hk, numeral, h0, if_false]

/-- Negative numbers whose negation is a value of the type are printed as a minus sign and
the numeral of the negation. -/
theorem kprintfPrintNumber_neg {T : IntType} {k : ℕ} (h0 : k ≠ 0) (hk : k < 2 ^ 64)
    (hT : T.wrap k = k) (fuel : ℕ) (u : Uart H) :
    kprintfPrintNumber P T fuel (-k) 10 u = sendChars P fuel (45 :: numeral 10 k) u := by
  have hneg : (-k : ℤ) < 0 := by omega
  have hloop : digitLoop (10 : ℕ) (numberBufSize + 1) k [] =
      .ok ((Nat.digits 10 k).map digitChar) := digitLoop_start le_rfl (by omega) hk
  have hwrap : T.wrap (-k * -1) = k := by rw [neg_mul_neg, mul_one, hT]
  rw [kprintfPrintNumber, if_neg (by omega)]
  simp only [if_pos hneg, hwrap, sendChars, List.foldlM_cons]
  refine bind_congr fun v => ?_
  rw [show (10 : ℤ) = (10 : ℕ) from rfl, hloop, ok_bind]
  simp [numeral, h0]

/-- What `%d` prints for a value of `int`. The negation of the smallest one is itself, and
its remainders are negative. -/
def intText (n : ℤ) : List UInt8 :=
  if n = -2 ^ 31 then cstr "-./,),(-*,("
  else if n < 0 then 45 :: numeral 10 n.natAbs
  else numeral 10 n.natAbs

theorem wrap_int (x : ℤ) : int.wrap x = x.bmod (2 ^ 32) := rfl

theorem wrap_int_range (x : ℤ) : -2 ^ 31 ≤ int.wrap x ∧ int.wrap x < 2 ^ 31 := by
  have hlo := Int.le_bmod (x := x) (m := 2 ^ 32) (by norm_num)
  have hhi := Int.bmod_lt (x := x) (m := 2 ^ 32) (by norm_num)
  rw [wrap_int]
  omega

/-- Values of `int`. -/
theorem kprintfPrintNumber_int {n : ℤ} (hlo : -2 ^ 31 ≤ n) (hhi : n < 2 ^ 31) (fuel : ℕ)
    (u : Uart H) :
    kprintfPrintNumber P int fuel n 10 u = sendChars P fuel (intText n) u := by
  by_cases hmin : n = -2 ^ 31
  · subst hmin
    have hloop : digitLoop 10 (numberBufSize + 1) (-2 ^ 31) [] = .ok (cstr "(,*-(,),/.") := rfl
    have hwrap : int.wrap (-2 ^ 31 * -1) = -2 ^ 31 := by decide
    rw [kprintfPrintNumber, if_neg (by decide)]
    simp only [if_pos (by decide : (-2 ^ 31 : ℤ) < 0), hwrap, hloop, ok_bind]
    rfl
  · by_cases hneg : n < 0
    · have hk : n = -(n.natAbs : ℤ) := by omega
      have hwrap : int.wrap n.natAbs = n.natAbs := by
        rw [wrap_int]
        exact Int.bmod_eq_of_le (by omega) (by omega)
      rw [intText, if_neg hmin, if_pos hneg,
        ← kprintfPrintNumber_neg (by omega) (by omega) hwrap, ← hk]
    · have hk : n = (n.natAbs : ℤ) := by omega
      rw [intText, if_neg hmin, if_neg hneg,
        ← kprintfPrintNumber_natCast le_rfl (by omega) (by omega) int, ← hk]
      rfl

end Printed

/-! ### What is printed for a format -/

section Formats

variable {H : Type} {P : Pl011 H} {strings : UInt64 → List UInt8} {fuel : ℕ}

/-- Characters one after the other. -/
theorem sendChars_append (as bs : List UInt8) (u : Uart H) :
    sendChars P fuel (as ++ bs) u = sendChars P fuel as u >>= sendChars P fuel bs := by
  simp only [sendChars, List.foldlM_append]
  rfl

theorem vkprintf_char {c : UInt8} (h0 : c ≠ 0) (hc : c ≠ ascii '%') (rest : List UInt8)
    (args : List UInt64) (u : Uart H) :
    vkprintf P strings fuel (c :: rest) args u =
      sendCharAsync P fuel c u >>= vkprintf P strings fuel rest args := by
  cases rest <;> simp only [vkprintf, h0, hc, if_false]

/-- Characters other than `%` are sent as they are. -/
theorem vkprintf_literal {lit : List UInt8} (h0 : (0 : UInt8) ∉ lit) (hlit : ascii '%' ∉ lit)
    (rest : List UInt8) (args : List UInt64) (u : Uart H) :
    vkprintf P strings fuel (lit ++ rest) args u =
      sendChars P fuel lit u >>= vkprintf P strings fuel rest args := by
  induction lit generalizing u with
  | nil => rfl
  | cons c lit ih =>
    obtain ⟨hc0, h0⟩ : ¬ (0 : UInt8) = c ∧ (0 : UInt8) ∉ lit := by
      simpa only [List.mem_cons, not_or] using h0
    obtain ⟨hc, hlit⟩ : ¬ ascii '%' = c ∧ ascii '%' ∉ lit := by
      simpa only [List.mem_cons, not_or] using hlit
    rw [List.cons_append, vkprintf_char (Ne.symm hc0) (Ne.symm hc), sendChars,
      List.foldlM_cons, bind_assoc]
    exact bind_congr fun v => ih h0 hlit v

/-- A conversion, then the rest of the format. -/
theorem vkprintf_convert {specifier : UInt8} (h : specifier ≠ 0) (rest : List UInt8)
    (args : List UInt64) (u : Uart H) :
    vkprintf P strings fuel (ascii '%' :: specifier :: rest) args u = (do
      let (args, u) ← convert P strings fuel specifier args u
      vkprintf P strings fuel rest args u) := by
  rw [vkprintf, if_neg (by decide), if_pos rfl]
  simp only [ne_eq, h, not_false_eq_true, if_true]

/-- A string without a newline is sent like its characters. -/
theorem sendStrAsync_plain {str : List UInt8} (h0 : (0 : UInt8) ∉ str)
    (hplain : (10 : UInt8) ∉ str) (u : Uart H) :
    sendStrAsync P fuel str u = sendChars P fuel str u := by
  induction str generalizing u with
  | nil => rfl
  | cons c str ih =>
    obtain ⟨hc0, h0⟩ : ¬ (0 : UInt8) = c ∧ (0 : UInt8) ∉ str := by
      simpa only [List.mem_cons, not_or] using h0
    obtain ⟨hc, hplain⟩ : ¬ (10 : UInt8) = c ∧ (10 : UInt8) ∉ str := by
      simpa only [List.mem_cons, not_or] using hplain
    rw [sendStrAsync, if_neg (Ne.symm hc0), if_neg (Ne.symm hc), ok_bind, sendChars,
      List.foldlM_cons]
    exact bind_congr fun v => ih h0 hplain v

theorem vaArg_bind {α : Type} (slot : UInt64) (args : List UInt64)
    (f : UInt64 × List UInt64 → Exec α) : (vaArg (slot :: args) >>= f) = f (slot, args) := by
  rw [vaArg, ok_bind]

end Formats

/-- The conversion of `slot` sends `cs`, on every device and in every state of the driver,
and uses up the slot. -/
def ConvertsTo (specifier : UInt8) (slot : UInt64) (cs : List UInt8) : Prop :=
  ∀ (H : Type) (P : Pl011 H) (strings : UInt64 → List UInt8) (fuel : ℕ) (rest : List UInt8)
    (args : List UInt64) (u : Uart H),
    vkprintf P strings fuel (ascii '%' :: specifier :: rest) (slot :: args) u =
      sendChars P fuel cs u >>= vkprintf P strings fuel rest args

/-- A conversion that prints its slot and leaves the other arguments. -/
theorem convertsTo_of {specifier : UInt8} {slot : UInt64} {cs : List UInt8}
    (h0 : specifier ≠ 0)
    (h : ∀ (H : Type) (P : Pl011 H) (strings : UInt64 → List UInt8) (fuel : ℕ)
      (args : List UInt64) (u : Uart H), convert P strings fuel specifier (slot :: args) u =
        sendChars P fuel cs u >>= fun u => pure (args, u)) :
    ConvertsTo specifier slot cs := by
  intro H P strings fuel rest args u
  rw [vkprintf_convert h0, h, bind_assoc]
  rfl

theorem convertsTo_d (slot : UInt64) :
    ConvertsTo (ascii 'd') slot (intText (int.wrap slot.toNat)) := by
  refine convertsTo_of (by decide) fun H P strings fuel args u => ?_
  obtain ⟨hlo, hhi⟩ := wrap_int_range slot.toNat
  rw [convert, if_pos rfl, vaArg_bind, ← kprintfPrintNumber_int hlo hhi]

theorem convertsTo_z (n : UInt64) : ConvertsTo (ascii 'z') n (numeral 10 n.toNat) := by
  refine convertsTo_of (by decide) fun H P strings fuel args u => ?_
  rw [convert, if_neg (by decide), if_pos rfl, vaArg_bind,
    ← kprintfPrintNumber_natCast le_rfl (by omega) n.toNat_lt uint64]
  rfl

theorem convertsTo_p (n : UInt64) :
    ConvertsTo (ascii 'p') n (cstr "0x" ++ numeral 16 n.toNat) := by
  refine convertsTo_of (by decide) fun H P strings fuel args u => ?_
  rw [convert, if_neg (by decide), if_neg (by decide), if_neg (by decide), if_pos rfl,
    vaArg_bind, sendStrAsync_plain (by decide) (by decide), sendChars_append, bind_assoc]
  refine bind_congr fun v => ?_
  rw [← kprintfPrintNumber_natCast (by omega) le_rfl n.toNat_lt uint64]
  rfl

/-- **Unsigned numbers print exactly.** For every 64-bit number, `%z` sends its canonical
decimal numeral and `%p` the letters `0x` and its canonical hexadecimal numeral, and the
digit loop stays inside its buffer. -/
theorem unsigned_numbers_print (n : UInt64) :
    (∃ dec, IsNumeral 10 n.toNat dec ∧ ConvertsTo (ascii 'z') n dec) ∧
      (∃ hex, IsNumeral 16 n.toNat hex ∧ ConvertsTo (ascii 'p') n (cstr "0x" ++ hex)) ∧
      ∀ b ∈ [10, 16], ∃ buf, digitLoop (b : ℕ) (numberBufSize + 1) n.toNat [] = .ok buf ∧
        buf.length ≤ numberBufSize := by
  have hdec : IsNumeral 10 n.toNat (numeral 10 n.toNat) :=
    isNumeral_numeral (by omega) (by omega) _
  have hhex : IsNumeral 16 n.toNat (numeral 16 n.toNat) :=
    isNumeral_numeral (by omega) le_rfl _
  refine ⟨⟨_, hdec, convertsTo_z n⟩, ⟨_, hhex, convertsTo_p n⟩, fun b hb => ?_⟩
  obtain ⟨hb, hb'⟩ : 10 ≤ b ∧ b ≤ 16 := by
    rcases List.mem_pair.mp hb with rfl | rfl <;> omega
  have hlen : (b.digits n.toNat).length ≤ numberBufSize :=
    (Nat.digits_length_le_iff (by omega) _).mpr (lt_pow_numberBufSize n.toNat_lt hb)
  exact ⟨_, digitLoop_start hb hb' n.toNat_lt, by simpa using hlen⟩

/-! ### Signed numbers -/

/-- With interrupts ready, characters are taken without waiting for the device. -/
theorem sendChars_returns {cs : List UInt8} {u : Uart Answers} (hready : u.irqsReady = true)
    (hfr : cs.length * bufferSize ≤ u.hw.fr.length) (fuel : ℕ) :
    ∃ u', sendChars answering fuel cs u = .ok u' ∧
      u.hw.fr.length ≤ u'.hw.fr.length + cs.length * bufferSize := by
  induction cs generalizing u with
  | nil => exact ⟨u, rfl, by simp⟩
  | cons c cs ih =>
    rw [List.length_cons, Nat.add_mul, Nat.one_mul] at hfr ⊢
    obtain ⟨v, hv, hleft⟩ := sendCharAsync_returns hready (by omega) fuel c
    have hon := (sendCharAsync_effect hv).irqsReady.trans hready
    obtain ⟨w, hw, hleft'⟩ := ih hon (by omega)
    rw [sendChars] at hw
    exact ⟨w, by rw [sendChars, List.foldlM_cons, hv, ok_bind, hw], by omega⟩

/-- A driver that takes `n` characters, with a device that is never ready. -/
def stalledUart (n : ℕ) : Uart Answers :=
  { idleUart with
    irqsReady := true
    hw := { idleUart.hw with fr := List.replicate (n * bufferSize) frTxff } }

/-- The bytes a conversion puts on the line are determined. -/
theorem ConvertsTo.flatMap_expand {specifier : UInt8} {slot : UInt64} {cs ds : List UInt8}
    (hcs : ConvertsTo specifier slot cs) (hds : ConvertsTo specifier slot ds) :
    cs.flatMap expand = ds.flatMap expand := by
  have hfr : cs.length * bufferSize ≤ (stalledUart cs.length).hw.fr.length := by
    simp [stalledUart]
  obtain ⟨u, hu, -⟩ := sendChars_returns rfl hfr 0
  have hsame : sendChars answering 0 cs (stalledUart cs.length) =
      sendChars answering 0 ds (stalledUart cs.length) := by
    have h := (hcs Answers answering (fun _ => []) 0 [] [] (stalledUart cs.length)).symm.trans
      (hds Answers answering (fun _ => []) 0 [] [] (stalledUart cs.length))
    simpa only [vkprintf, bind_ok] using h
  have hputs := (sendChars_effect hu).puts
  rw [(sendChars_effect (hsame ▸ hu)).puts] at hputs
  exact (List.append_cancel_left hputs).symm

/-- Characters without a newline are sent as they are. -/
theorem flatMap_expand_plain {cs : List UInt8} (h : (10 : UInt8) ∉ cs) :
    cs.flatMap expand = cs := by
  induction cs with
  | nil => rfl
  | cons c cs ih =>
    obtain ⟨hc, h⟩ : ¬ (10 : UInt8) = c ∧ (10 : UInt8) ∉ cs := by
      simpa only [List.mem_cons, not_or] using h
    rw [List.flatMap_cons, ih h, expand, if_neg (Ne.symm hc), List.singleton_append]

/-- `%d` sends the canonical numeral of the `int` in the slot. -/
def PrintsExactly (slot : UInt64) : Prop :=
  ∃ cs, IsSignedNumeral (int.wrap slot.toNat) cs ∧ ConvertsTo (ascii 'd') slot cs

/-- The smallest `int` is printed with characters that are not digits. -/
theorem not_printsExactly_of_min {slot : UInt64} (h : int.wrap slot.toNat = -2 ^ 31) :
    ¬ PrintsExactly slot := by
  rintro ⟨cs, hcs, hconv⟩
  have htext := convertsTo_d slot
  rw [h] at hcs htext
  obtain ⟨ds, rfl, hds⟩ := hcs.of_neg (by norm_num)
  have hdigits := hds.isSome_digitValue
  have hplain : (10 : UInt8) ∉ 45 :: ds := by
    intro hmem
    rcases List.mem_cons.mp hmem with h10 | hmem
    · exact absurd h10 (by decide)
    · exact absurd (hdigits 10 hmem) (by decide)
  have hsame := hconv.flatMap_expand htext
  rw [flatMap_expand_plain hplain, flatMap_expand_plain (by decide)] at hsame
  have hmem : (46 : UInt8) ∈ ds := by
    rw [(List.cons.inj (hsame.trans (rfl : _ = 45 :: cstr "./,),(-*,("))).2]
    decide
  exact absurd (hdigits 46 hmem) (by decide)

/-- **Signed numbers print exactly, but for one.** `%d` sends the canonical numeral of every
`int` except the smallest, whose negation is not an `int`. -/
theorem signed_number_prints_iff (slot : UInt64) :
    PrintsExactly slot ↔ int.wrap slot.toNat ≠ -2 ^ 31 := by
  constructor
  · exact fun h hmin => not_printsExactly_of_min hmin h
  · intro hmin
    refine ⟨_, ?_, convertsTo_d slot⟩
    generalize int.wrap slot.toNat = n at hmin
    have hnum : IsNumeral 10 n.natAbs (numeral 10 n.natAbs) :=
      isNumeral_numeral (by omega) (by omega) _
    by_cases hneg : n < 0
    · rw [intText, if_neg hmin, if_pos hneg]
      exact ⟨fun h => absurd hneg (by omega), fun _ => ⟨_, rfl, hnum⟩⟩
    · rw [intText, if_neg hmin, if_neg hneg]
      exact ⟨fun _ => hnum, fun h => absurd h hneg⟩

/-- The smallest `int`. -/
theorem int_min_prints_no_numeral :
    int.wrap (0x80000000 : UInt64).toNat = -2 ^ 31 ∧ ¬ PrintsExactly 0x80000000 :=
  ⟨by decide, not_printsExactly_of_min (by decide)⟩

end Floss
