import Mathlib.Data.BitVec
import Mathlib.Data.List.Basic
import Mathlib.Tactic.Ring

/-!
# Words in a Byte Memory

A memory as a processor core sees it: a byte at every 64-bit address, and double words of
eight bytes, least significant byte first. Addresses wrap around, so how far an address lies
behind another one is the difference `(b - a).toNat`, and "outside of the word at `a`" is
`8 ≤ (b - a).toNat`.

* `load64_store64`: what was stored is loaded back;
* `load64_congr`: a load depends on its eight bytes only;
* `storeWords`: double words at consecutive addresses, with `load64_storeWords` for each of
  them.
-/

namespace Floss

/-- A byte at every address. -/
abbrev Bytes := BitVec 64 → BitVec 8

/-- The double word at `a`, little-endian. -/
def load64 (m : Bytes) (a : BitVec 64) : BitVec 64 :=
  m (a + 7) ++ m (a + 6) ++ m (a + 5) ++ m (a + 4) ++ m (a + 3) ++ m (a + 2) ++ m (a + 1) ++ m a

/-- Store a double word at `a`. -/
def store64 (m : Bytes) (a v : BitVec 64) : Bytes :=
  fun b => if (b - a).toNat < 8 then v.extractLsb' (8 * (b - a).toNat) 8 else m b

/-- Bytes outside of the word keep their value. -/
theorem store64_of_outside {m : Bytes} {a v b : BitVec 64} (h : 8 ≤ (b - a).toNat) :
    store64 m a v b = m b := by
  rw [store64, if_neg (by omega)]

/-- Byte `i` of a stored word. -/
theorem store64_byte (m : Bytes) (a v : BitVec 64) {i : ℕ} (hi : i < 8) :
    store64 m a v (a + BitVec.ofNat 64 i) = v.extractLsb' (8 * i) 8 := by
  have hdiff : (a + BitVec.ofNat 64 i - a).toNat = i := by
    rw [add_sub_cancel_left]
    simp
    omega
  rw [store64, hdiff, if_pos hi]

/-- **What was stored is loaded back.** -/
theorem load64_store64 (m : Bytes) (a v : BitVec 64) : load64 (store64 m a v) a = v := by
  have h0 : store64 m a v a = v.extractLsb' 0 8 := by
    simpa using store64_byte m a v (i := 0) (by omega)
  have h1 : store64 m a v (a + 1) = v.extractLsb' 8 8 := store64_byte m a v (i := 1) (by omega)
  have h2 : store64 m a v (a + 2) = v.extractLsb' 16 8 := store64_byte m a v (i := 2) (by omega)
  have h3 : store64 m a v (a + 3) = v.extractLsb' 24 8 := store64_byte m a v (i := 3) (by omega)
  have h4 : store64 m a v (a + 4) = v.extractLsb' 32 8 := store64_byte m a v (i := 4) (by omega)
  have h5 : store64 m a v (a + 5) = v.extractLsb' 40 8 := store64_byte m a v (i := 5) (by omega)
  have h6 : store64 m a v (a + 6) = v.extractLsb' 48 8 := store64_byte m a v (i := 6) (by omega)
  have h7 : store64 m a v (a + 7) = v.extractLsb' 56 8 := store64_byte m a v (i := 7) (by omega)
  rw [load64, h0, h1, h2, h3, h4, h5, h6, h7]
  -- from the top, the bytes join to ever longer parts of the word
  have join : ∀ start len len', v.extractLsb' (start + len) len' ++ v.extractLsb' start len =
      v.extractLsb' start (len' + len) :=
    fun _ _ _ => BitVec.extractLsb'_append_extractLsb'_eq_extractLsb' rfl
  rw [join 48 8 8, join 40 8, join 32 8, join 24 8, join 16 8, join 8 8, join 0 8]
  exact BitVec.extractLsb'_eq_self

/-- A load depends on its eight bytes only. -/
theorem load64_congr {m m' : Bytes} {a : BitVec 64}
    (h : ∀ b : BitVec 64, (b - a).toNat < 8 → m' b = m b) : load64 m' a = load64 m a := by
  have hbyte : ∀ i < 8, m' (a + BitVec.ofNat 64 i) = m (a + BitVec.ofNat 64 i) := by
    intro i hi
    refine h _ ?_
    rw [add_sub_cancel_left]
    simp
    omega
  have h0 : m' a = m a := by simpa using hbyte 0 (by omega)
  have h1 : m' (a + 1) = m (a + 1) := hbyte 1 (by omega)
  have h2 : m' (a + 2) = m (a + 2) := hbyte 2 (by omega)
  have h3 : m' (a + 3) = m (a + 3) := hbyte 3 (by omega)
  have h4 : m' (a + 4) = m (a + 4) := hbyte 4 (by omega)
  have h5 : m' (a + 5) = m (a + 5) := hbyte 5 (by omega)
  have h6 : m' (a + 6) = m (a + 6) := hbyte 6 (by omega)
  have h7 : m' (a + 7) = m (a + 7) := hbyte 7 (by omega)
  rw [load64, load64, h0, h1, h2, h3, h4, h5, h6, h7]

/-! ### Consecutive words -/

/-- Store double words one after the other, from the `k`th behind `a` on. -/
def storeFrom (m : Bytes) (a : BitVec 64) : ℕ → List (BitVec 64) → Bytes
  | _, [] => m
  | k, v :: vs => storeFrom (store64 m (a + BitVec.ofNat 64 (8 * k)) v) a (k + 1) vs

/-- Store double words one after the other, from `a` on. -/
def storeWords (m : Bytes) (a : BitVec 64) (vs : List (BitVec 64)) : Bytes := storeFrom m a 0 vs

/-- Distances from a word behind `a`. -/
theorem toNat_sub_word {a b : BitVec 64} {k : ℕ} (hk : 8 * k < 2 ^ 64) :
    (b - (a + BitVec.ofNat 64 (8 * k))).toNat =
      if 8 * k ≤ (b - a).toNat then (b - a).toNat - 8 * k else (b - a).toNat + 2 ^ 64 - 8 * k := by
  have hsub : b - (a + BitVec.ofNat 64 (8 * k)) = b - a - BitVec.ofNat 64 (8 * k) := by ring
  rw [hsub]
  generalize b - a = d
  split <;> bv_omega

theorem storeFrom_of_outside {m : Bytes} {a b : BitVec 64} {k : ℕ} {vs : List (BitVec 64)}
    (hlen : 8 * (k + vs.length) < 2 ^ 64)
    (h : (b - a).toNat < 8 * k ∨ 8 * (k + vs.length) ≤ (b - a).toNat) :
    storeFrom m a k vs b = m b := by
  induction vs generalizing m k with
  | nil => rfl
  | cons v vs ih =>
    rw [List.length_cons] at hlen h
    have hfar : 8 ≤ (b - (a + BitVec.ofNat 64 (8 * k))).toNat := by
      rw [toNat_sub_word (by omega)]
      split <;> omega
    rw [storeFrom, ih (by omega) (by omega), store64_of_outside hfar]

theorem load64_storeFrom {m : Bytes} {a : BitVec 64} {k : ℕ} {vs : List (BitVec 64)}
    (hlen : 8 * (k + vs.length) < 2 ^ 64) {j : ℕ} {v : BitVec 64} (hv : vs[j]? = some v) :
    load64 (storeFrom m a k vs) (a + BitVec.ofNat 64 (8 * (k + j))) = v := by
  induction vs generalizing m k j with
  | nil => simp at hv
  | cons w vs ih =>
    rw [List.length_cons] at hlen
    cases j with
    | zero =>
      obtain rfl : w = v := by simpa using hv
      have hkeep : ∀ b : BitVec 64, (b - (a + BitVec.ofNat 64 (8 * k))).toNat < 8 →
          storeFrom (store64 m (a + BitVec.ofNat 64 (8 * k)) w) a (k + 1) vs b =
            store64 m (a + BitVec.ofNat 64 (8 * k)) w b := by
        intro b hb
        refine storeFrom_of_outside (by omega) (.inl ?_)
        rw [toNat_sub_word (by omega)] at hb
        split at hb <;> omega
      exact (load64_congr hkeep).trans (load64_store64 _ _ _)
    | succ j =>
      rw [storeFrom, show k + (j + 1) = k + 1 + j by omega]
      exact ih (by omega) (by simpa using hv)

/-- **Each word is loaded back.** -/
theorem load64_storeWords {m : Bytes} {a : BitVec 64} {vs : List (BitVec 64)}
    (hlen : 8 * vs.length < 2 ^ 64) {k : ℕ} {v : BitVec 64} (hv : vs[k]? = some v) :
    load64 (storeWords m a vs) (a + BitVec.ofNat 64 (8 * k)) = v := by
  have h := load64_storeFrom (m := m) (a := a) (k := 0) (by omega) hv
  rwa [Nat.zero_add] at h

/-! ### Clearing -/

/-- Clear the `n` double words from `a` on. -/
def clearWords (m : Bytes) (a : BitVec 64) (n : ℕ) : Bytes :=
  fun b => if (b - a).toNat < 8 * n then 0 else m b

theorem clearWords_zero (m : Bytes) (a : BitVec 64) : clearWords m a 0 = m := by
  funext b
  simp [clearWords]

/-- One more word. -/
theorem store64_clearWords (m : Bytes) (a : BitVec 64) {n : ℕ} (hn : 8 * (n + 1) < 2 ^ 64) :
    store64 (clearWords m a n) (a + BitVec.ofNat 64 (8 * n)) 0 = clearWords m a (n + 1) := by
  funext b
  rw [store64, toNat_sub_word (by omega), clearWords, clearWords]
  have hlt := (b - a).isLt
  rw [show (0 : BitVec 64).extractLsb' _ 8 = 0 from BitVec.extractLsb'_zero]
  split_ifs <;> first | rfl | omega

end Floss
