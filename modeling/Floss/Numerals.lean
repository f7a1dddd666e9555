import Mathlib.Data.Nat.Digits.Lemmas

/-!
# Numerals

Positional numerals over the digits `0` to `9` and `a` to `f`. A numeral is read most
significant digit first (`readDigits`); it is the canonical one of its number if it has no
leading zero (`IsNumeral`), and a signed one has a minus sign exactly for negative numbers
(`IsSignedNumeral`).

* `isNumeral_numeral`: the digits that repeated division gives, in reverse, are the
  canonical numeral;
* `IsNumeral.isSome_digitValue`: a numeral has digits only.
-/

namespace Floss

/-! ### Digits -/

/-- The character of a digit. -/
def digitChar (d : ℕ) : UInt8 :=
  if d < 10 then UInt8.ofNat (48 + d) else UInt8.ofNat (97 + d - 10)

/-- The digit a character stands for: `0` to `9`, or `a` to `f` in lower case. -/
def digitValue (c : UInt8) : Option ℕ :=
  if 48 ≤ c ∧ c ≤ 57 then some (c.toNat - 48)
  else if 97 ≤ c ∧ c ≤ 102 then some (c.toNat - 97 + 10)
  else none

/-- The number that a string of digits gives in base `b`, if all its characters are digits
of that base. -/
def readDigits (b : ℕ) (cs : List UInt8) : Option ℕ :=
  cs.foldlM (fun n c => (digitValue c).bind fun d => if d < b then some (n * b + d) else none) 0

/-- Every digit is read back from its character. -/
theorem digitValue_digitChar {d : ℕ} (h : d < 16) : digitValue (digitChar d) = some d := by
  revert d
  decide

/-- Only zero is written `0`. -/
theorem digitChar_eq_zero {d : ℕ} (h : d < 16) : digitChar d = 48 ↔ d = 0 := by
  revert d
  decide

/-! ### Numerals of a number -/

/-- The characters `cs` are the canonical numeral of `n` in base `b`. -/
structure IsNumeral (b n : ℕ) (cs : List UInt8) : Prop where
  nonempty : cs ≠ []
  /-- only the numeral of zero starts with a zero -/
  canonical : cs.head? = some 48 → cs = [48]
  reads : readDigits b cs = some n

/-- The characters `cs` are the canonical decimal numeral of the integer `n`. -/
structure IsSignedNumeral (n : ℤ) (cs : List UInt8) : Prop where
  of_nonneg : 0 ≤ n → IsNumeral 10 n.natAbs cs
  of_neg : n < 0 → ∃ ds, cs = 45 :: ds ∧ IsNumeral 10 n.natAbs ds

/-- The numeral of `n` in base `b`: its digits, most significant first. -/
def numeral (b n : ℕ) : List UInt8 :=
  if n = 0 then [48] else ((b.digits n).map digitChar).reverse

/-- Digits of the base give the number they are the digits of. The induction is on the
digits, least significant first, so the last character is peeled off at each step. -/
theorem readDigits_reverse {b : ℕ} (hb : b ≤ 16) {ds : List ℕ} (hds : ∀ d ∈ ds, d < b) :
    readDigits b (ds.map digitChar).reverse = some (Nat.ofDigits b ds) := by
  induction ds with
  | nil => rfl
  | cons d ds ih =>
    have hd : d < b := hds d List.mem_cons_self
    have hrest := ih fun d hd => hds d (List.mem_cons_of_mem _ hd)
    rw [readDigits] at hrest
    rw [readDigits, List.map_cons, List.reverse_cons, List.foldlM_append, hrest]
    simp only [Option.bind_eq_bind, Option.bind_some, List.foldlM_cons, List.foldlM_nil,
      digitValue_digitChar (by omega : d < 16), if_pos hd, Nat.ofDigits_cons]
    rw [Nat.mul_comm, Nat.add_comm]
    rfl

/-- **Repeated division** gives the canonical numeral. -/
theorem isNumeral_numeral {b : ℕ} (hb : 1 < b) (hb' : b ≤ 16) (n : ℕ) :
    IsNumeral b n (numeral b n) := by
  by_cases hn : n = 0
  · subst hn
    refine ⟨by simp [numeral], fun _ => by simp [numeral], ?_⟩
    have hds : ∀ d ∈ [0], d < b := by
      intro d hd
      rw [List.mem_singleton] at hd
      omega
    simpa [numeral, digitChar] using readDigits_reverse hb' hds
  · have hlt : ∀ d ∈ b.digits n, d < b := fun d hd => Nat.digits_lt_base hb hd
    have hnil : b.digits n ≠ [] := Nat.digits_ne_nil_iff_ne_zero.mpr hn
    have hnum : numeral b n = ((b.digits n).map digitChar).reverse := by simp [numeral, hn]
    refine ⟨by simpa [hnum] using hnil, ?_, ?_⟩
    · intro hhead
      have hlast := Nat.getLast_digit_ne_zero b hn
      have hl16 : (b.digits n).getLast hnil < 16 :=
        Nat.lt_of_lt_of_le (hlt _ (List.getLast_mem hnil)) hb'
      rw [hnum, List.head?_reverse, List.getLast?_map, List.getLast?_eq_getLast_of_ne_nil hnil,
        Option.map_some, Option.some.injEq] at hhead
      exact absurd ((digitChar_eq_zero hl16).mp hhead) hlast
    · rw [hnum, readDigits_reverse hb' hlt, Nat.ofDigits_digits]

/-- A numeral has digits only. The induction generalizes the number read so far. -/
theorem IsNumeral.isSome_digitValue {b n : ℕ} {cs : List UInt8} (h : IsNumeral b n cs) :
    ∀ c ∈ cs, (digitValue c).isSome := by
  have hreads := h.reads
  rw [readDigits] at hreads
  clear h
  generalize 0 = acc at hreads
  induction cs generalizing acc with
  | nil => simp
  | cons c cs ih =>
    rw [List.foldlM_cons] at hreads
    obtain ⟨acc', hacc, hrest⟩ := Option.bind_eq_some_iff.mp hreads
    obtain ⟨d, hd, -⟩ := Option.bind_eq_some_iff.mp hacc
    intro x hx
    rcases List.mem_cons.mp hx with rfl | hx
    · simp [hd]
    · exact ih acc' hrest x hx

end Floss
