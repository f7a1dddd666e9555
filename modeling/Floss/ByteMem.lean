import Floss.Exec
import Mathlib.Data.Nat.Bitwise
import Mathlib.Tactic.Ring

/-!
# Byte Memory and Big-Endian Fields

A memory gives the byte readable at an address, or nothing. Loads from an address
without a byte stop the run, so "the program reads only inside `[lo, hi)`" is the
statement that it runs the same, without a fault, on the memory restricted to that
range (`Mem.restrict`).

`Holds m a bs` says that the bytes `bs` lie at address `a`; `StrAt m a s` that a
NUL-terminated string does. Big-endian reads are characterised twice: by the encoding
they undo (`be32_of_holds`) and by where they read (`be32_restrict`, `be32_isOk`).
-/

namespace Floss

/-- Names are compared as lists of bytes; membership of a name in a list is decided by
this. -/
instance instLawfulBEqBytes : LawfulBEq (List UInt8) := inferInstance

/-- A memory: the byte readable at each address, if any. Addresses are natural numbers;
pointers of the modelled programs never wrap around. -/
abbrev Mem := ℕ → Option UInt8

namespace Mem

/-- One byte load. -/
def load (m : Mem) (a : ℕ) : Exec UInt8 :=
  match m a with
  | some b => .ok b
  | none => .error (.access a)

/-- The memory of which only `[lo, hi)` is readable. -/
def restrict (m : Mem) (lo hi : ℕ) : Mem :=
  fun a => if lo ≤ a ∧ a < hi then m a else none

/-- A memory that holds exactly `bytes`, starting at `base`. -/
def ofBytes (base : ℕ) (bytes : List UInt8) : Mem :=
  fun a => if base ≤ a then bytes[a - base]? else none

@[simp] theorem load_eq_ok {m : Mem} {a : ℕ} {b : UInt8} :
    m.load a = .ok b ↔ m a = some b := by
  rw [load]
  cases m a <;> simp

/-- Inside the range, the restricted memory loads the same byte. -/
theorem load_restrict {m : Mem} {lo hi a : ℕ} (hlo : lo ≤ a) (hhi : a < hi) :
    (m.restrict lo hi).load a = m.load a := by
  simp [load, restrict, hlo, hhi]

/-- Every address of `[lo, hi)` is readable. -/
def Readable (m : Mem) (lo hi : ℕ) : Prop :=
  ∀ a, lo ≤ a → a < hi → ∃ b, m a = some b

theorem Readable.mono {m : Mem} {lo hi lo' hi' : ℕ} (h : m.Readable lo hi)
    (hlo : lo ≤ lo') (hhi : hi' ≤ hi) : m.Readable lo' hi' :=
  fun a ha ha' => h a (by omega) (by omega)

end Mem

/-! ### Bytes and strings in memory -/

/-- The bytes `bs` lie at address `a`. -/
def Holds (m : Mem) : ℕ → List UInt8 → Prop
  | _, [] => True
  | a, b :: bs => m a = some b ∧ Holds m (a + 1) bs

instance Holds.decidable (m : Mem) : (a : ℕ) → (bs : List UInt8) → Decidable (Holds m a bs)
  | _, [] => inferInstanceAs (Decidable True)
  | a, b :: bs =>
      have := Holds.decidable m (a + 1) bs
      inferInstanceAs (Decidable (m a = some b ∧ Holds m (a + 1) bs))

@[simp] theorem holds_nil (m : Mem) (a : ℕ) : Holds m a [] := trivial

@[simp] theorem holds_cons {m : Mem} {a : ℕ} {b : UInt8} {bs : List UInt8} :
    Holds m a (b :: bs) ↔ m a = some b ∧ Holds m (a + 1) bs := Iff.rfl

/-- Consecutive byte strings lie one after the other. -/
theorem holds_append {m : Mem} {a : ℕ} {xs ys : List UInt8} :
    Holds m a (xs ++ ys) ↔ Holds m a xs ∧ Holds m (a + xs.length) ys := by
  induction xs generalizing a with
  | nil => simp
  | cons x xs ih =>
      simp only [List.cons_append, holds_cons, ih, List.length_cons, and_assoc]
      rw [show a + 1 + xs.length = a + (xs.length + 1) by omega]

/-- The first byte of a non-empty string in memory is readable. -/
theorem Holds.readable_head {m : Mem} {a : ℕ} {bs : List UInt8} (h : Holds m a bs)
    (hne : bs ≠ []) : ∃ b, m a = some b := by
  cases bs with
  | nil => exact absurd rfl hne
  | cons b bs => exact ⟨b, h.1⟩

/-- Bytes found one by one lie in memory. -/
theorem holds_of_getElem? {m : Mem} {a : ℕ} {bs : List UInt8}
    (h : ∀ i, i < bs.length → m (a + i) = bs[i]?) : Holds m a bs := by
  induction bs generalizing a with
  | nil => trivial
  | cons b bs ih =>
      refine ⟨by simpa using h 0 (by simp), ih fun i hi => ?_⟩
      have hi' := h (i + 1) (by simpa using hi)
      rw [show a + (i + 1) = a + 1 + i by omega] at hi'
      simpa using hi'

/-- Bytes that lie inside the readable range can still be read. -/
theorem Holds.restrict {m : Mem} {a lo hi : ℕ} {bs : List UInt8} (h : Holds m a bs)
    (hlo : lo ≤ a) (hhi : a + bs.length ≤ hi) : Holds (m.restrict lo hi) a bs := by
  induction bs generalizing a with
  | nil => trivial
  | cons b bs ih =>
      simp only [List.length_cons] at hhi
      refine ⟨?_, ih h.2 (by omega) (by omega)⟩
      rw [Mem.restrict, if_pos (by omega)]
      exact h.1

/-- A memory made of bytes holds them. -/
theorem holds_ofBytes (base : ℕ) (bytes : List UInt8) :
    Holds (Mem.ofBytes base bytes) base bytes :=
  holds_of_getElem? fun i _ => by simp [Mem.ofBytes]

/-- A memory made of bytes is readable where they are. -/
theorem readable_ofBytes (base : ℕ) (bytes : List UInt8) :
    (Mem.ofBytes base bytes).Readable base (base + bytes.length) := by
  intro a ha ha'
  have hi : a - base < bytes.length := by omega
  exact ⟨bytes[a - base], by simp [Mem.ofBytes, ha, hi]⟩

/-- The NUL-terminated string `s` lies at address `a`; it has no NUL of its own. -/
def StrAt (m : Mem) (a : ℕ) (s : List UInt8) : Prop :=
  Holds m a (s ++ [0]) ∧ (0 : UInt8) ∉ s

theorem strAt_nil {m : Mem} {a : ℕ} : StrAt m a [] ↔ m a = some 0 := by
  simp [StrAt]

theorem strAt_cons {m : Mem} {a : ℕ} {b : UInt8} {s : List UInt8} :
    StrAt m a (b :: s) ↔ m a = some b ∧ b ≠ 0 ∧ StrAt m (a + 1) s := by
  simp only [StrAt, List.cons_append, holds_cons, List.mem_cons, not_or]
  constructor
  · rintro ⟨⟨hb, hs⟩, h0, hn⟩
    exact ⟨hb, fun h => h0 h.symm, hs, hn⟩
  · rintro ⟨hb, h0, hs, hn⟩
    exact ⟨⟨hb, hs⟩, fun h => h0 h.symm, hn⟩

/-- An address has at most one string. -/
theorem StrAt.unique {m : Mem} {a : ℕ} {s t : List UInt8} (hs : StrAt m a s)
    (ht : StrAt m a t) : s = t := by
  induction s generalizing a t with
  | nil =>
      cases t with
      | nil => rfl
      | cons c t =>
          obtain ⟨hc, hne, -⟩ := strAt_cons.1 ht
          rw [strAt_nil.1 hs, Option.some.injEq] at hc
          exact absurd hc.symm hne
  | cons b s ih =>
      obtain ⟨hb, hne, hs⟩ := strAt_cons.1 hs
      cases t with
      | nil =>
          rw [strAt_nil.1 ht, Option.some.injEq] at hb
          exact absurd hb.symm hne
      | cons c t =>
          obtain ⟨hc, -, ht⟩ := strAt_cons.1 ht
          rw [hb, Option.some.injEq] at hc
          rw [hc, ih hs ht]

/-! ### Big-endian reads -/

/-- Read a big-endian 32-bit integer, byte by byte. -/
def be32 (m : Mem) (p : ℕ) : Exec ℕ := do
  let b0 ← m.load p
  let b1 ← m.load (p + 1)
  let b2 ← m.load (p + 2)
  let b3 ← m.load (p + 3)
  return b0.toNat <<< 24 ||| b1.toNat <<< 16 ||| b2.toNat <<< 8 ||| b3.toNat

/-- Read a big-endian 64-bit integer. -/
def be64 (m : Mem) (p : ℕ) : Exec ℕ := do
  let hi ← be32 m p
  let lo ← be32 m (p + 4)
  return hi <<< 32 ||| lo

/-- Loads stop with an access fault only. -/
theorem load_avoids {bad : Fault → Prop} (hbad : ∀ a, ¬ bad (.access a)) (m : Mem) (p : ℕ) :
    Avoids (m.load p) bad := by
  rw [Mem.load]
  split
  · exact avoids_ok _
  · exact avoids_error (hbad p)

theorem be32_avoids {bad : Fault → Prop} (hbad : ∀ a, ¬ bad (.access a)) (m : Mem) (p : ℕ) :
    Avoids (be32 m p) bad :=
  (load_avoids hbad m p).bind fun _ _ => (load_avoids hbad m _).bind fun _ _ =>
    (load_avoids hbad m _).bind fun _ _ => (load_avoids hbad m _).bind fun _ _ => avoids_ok _

theorem be64_avoids {bad : Fault → Prop} (hbad : ∀ a, ¬ bad (.access a)) (m : Mem) (p : ℕ) :
    Avoids (be64 m p) bad :=
  (be32_avoids hbad m p).bind fun _ _ => (be32_avoids hbad m _).bind fun _ _ => avoids_ok _

/-- The four bytes of a 32-bit integer, most significant first. -/
def bytes32 (n : ℕ) : List UInt8 :=
  [UInt8.ofNat (n >>> 24), UInt8.ofNat (n >>> 16), UInt8.ofNat (n >>> 8), UInt8.ofNat n]

@[simp] theorem length_bytes32 (n : ℕ) : (bytes32 n).length = 4 := rfl

/-- Shifted bytes do not overlap, so their disjunction is their sum. -/
theorem or_bytes (b0 b1 b2 b3 : UInt8) :
    b0.toNat <<< 24 ||| b1.toNat <<< 16 ||| b2.toNat <<< 8 ||| b3.toNat =
      b0.toNat * 2 ^ 24 + b1.toNat * 2 ^ 16 + b2.toNat * 2 ^ 8 + b3.toNat := by
  have h1 := b1.toNat_lt
  have h2 := b2.toNat_lt
  have h3 := b3.toNat_lt
  have e2 : b2.toNat <<< 8 ||| b3.toNat = b2.toNat <<< 8 + b3.toNat :=
    (Nat.shiftLeft_add_eq_or_of_lt (by omega) _).symm
  have e1 : b1.toNat <<< 16 ||| (b2.toNat <<< 8 ||| b3.toNat) =
      b1.toNat <<< 16 + (b2.toNat <<< 8 + b3.toNat) := by
    rw [e2]
    exact (Nat.shiftLeft_add_eq_or_of_lt (by rw [Nat.shiftLeft_eq]; omega) _).symm
  have e0 : b0.toNat <<< 24 ||| (b1.toNat <<< 16 ||| (b2.toNat <<< 8 ||| b3.toNat)) =
      b0.toNat <<< 24 + (b1.toNat <<< 16 + (b2.toNat <<< 8 + b3.toNat)) := by
    rw [e1]
    exact (Nat.shiftLeft_add_eq_or_of_lt
      (by simp only [Nat.shiftLeft_eq]; omega) _).symm
  rw [Nat.or_assoc, Nat.or_assoc, e0]
  simp only [Nat.shiftLeft_eq]
  ring

/-- A successful read is the value of the four bytes at the address. -/
theorem be32_eq_ok {m : Mem} {p v : ℕ} :
    be32 m p = .ok v ↔ ∃ b0 b1 b2 b3 : UInt8,
      m p = some b0 ∧ m (p + 1) = some b1 ∧ m (p + 2) = some b2 ∧ m (p + 3) = some b3 ∧
      v = b0.toNat * 2 ^ 24 + b1.toNat * 2 ^ 16 + b2.toNat * 2 ^ 8 + b3.toNat := by
  simp only [be32, bind_eq_ok, Mem.load_eq_ok, pure_eq_ok, Except.ok.injEq, or_bytes]
  constructor
  · rintro ⟨b0, h0, b1, h1, b2, h2, b3, h3, rfl⟩
    exact ⟨b0, b1, b2, b3, h0, h1, h2, h3, rfl⟩
  · rintro ⟨b0, b1, b2, b3, h0, h1, h2, h3, rfl⟩
    exact ⟨b0, h0, b1, h1, b2, h2, b3, h3, rfl⟩

/-- A 32-bit read yields a 32-bit value. -/
theorem be32_lt {m : Mem} {p v : ℕ} (h : be32 m p = .ok v) : v < 2 ^ 32 := by
  obtain ⟨b0, b1, b2, b3, -, -, -, -, rfl⟩ := be32_eq_ok.mp h
  have h0 := b0.toNat_lt
  have h1 := b1.toNat_lt
  have h2 := b2.toNat_lt
  have h3 := b3.toNat_lt
  omega

/-- Reading undoes encoding. -/
theorem be32_of_holds {m : Mem} {p n : ℕ} (hn : n < 2 ^ 32) (h : Holds m p (bytes32 n)) :
    be32 m p = .ok n := by
  obtain ⟨h0, h1, h2, h3, -⟩ := h
  refine be32_eq_ok.mpr ⟨_, _, _, _, h0, h1, h2, h3, ?_⟩
  simp only [UInt8.toNat_ofNat', Nat.shiftRight_eq_div_pow]
  omega

/-- A 32-bit field followed by other bytes. -/
theorem holds_word {m : Mem} {a n : ℕ} {bs : List UInt8} (hn : n < 2 ^ 32)
    (h : Holds m a (bytes32 n ++ bs)) : be32 m a = .ok n ∧ Holds m (a + 4) bs := by
  obtain ⟨h1, h2⟩ := holds_append.mp h
  exact ⟨be32_of_holds hn h1, by simpa using h2⟩

/-- Four readable bytes make a readable field. -/
theorem be32_isOk {m : Mem} {p lo hi : ℕ} (hr : m.Readable lo hi) (hlo : lo ≤ p)
    (hhi : p + 4 ≤ hi) : ∃ v, be32 m p = .ok v := by
  obtain ⟨b0, h0⟩ := hr p hlo (by omega)
  obtain ⟨b1, h1⟩ := hr (p + 1) (by omega) (by omega)
  obtain ⟨b2, h2⟩ := hr (p + 2) (by omega) (by omega)
  obtain ⟨b3, h3⟩ := hr (p + 3) (by omega) (by omega)
  exact ⟨_, be32_eq_ok.mpr ⟨b0, b1, b2, b3, h0, h1, h2, h3, rfl⟩⟩

/-- Four bytes in memory make a readable field. -/
theorem be32_isOk_of_holds {m : Mem} {a : ℕ} {bs : List UInt8} (h : Holds m a bs)
    (hlen : 4 ≤ bs.length) : ∃ v, be32 m a = .ok v := by
  rcases bs with _ | ⟨b0, _ | ⟨b1, _ | ⟨b2, _ | ⟨b3, rest⟩⟩⟩⟩
  · simp at hlen
  · simp at hlen
  · simp at hlen
  · simp at hlen
  · obtain ⟨h0, h1, h2, h3, -⟩ := h
    exact ⟨_, be32_eq_ok.mpr ⟨b0, b1, b2, b3, h0, h1, h2, h3, rfl⟩⟩

/-- A 32-bit read touches only the four bytes of the field. -/
theorem be32_restrict {m : Mem} {p lo hi : ℕ} (hlo : lo ≤ p) (hhi : p + 4 ≤ hi) :
    be32 (m.restrict lo hi) p = be32 m p := by
  rw [be32, be32]
  rw [Mem.load_restrict (by omega) (by omega), Mem.load_restrict (by omega) (by omega),
    Mem.load_restrict (by omega) (by omega), Mem.load_restrict (by omega) (by omega)]

/-- A field that ends behind the range cannot be read inside it. -/
theorem be32_restrict_ne_ok {m : Mem} {p lo hi : ℕ} (hhi : hi < p + 4) (v : ℕ) :
    be32 (m.restrict lo hi) p ≠ .ok v := by
  intro h
  obtain ⟨-, -, -, b3, -, -, -, hlast, -⟩ := be32_eq_ok.1 h
  rw [Mem.restrict, if_neg (by omega)] at hlast
  simp at hlast

/-- Eight readable bytes make a readable 64-bit field. -/
theorem be64_isOk {m : Mem} {p lo hi : ℕ} (hr : m.Readable lo hi) (hlo : lo ≤ p)
    (hhi : p + 8 ≤ hi) : ∃ v, be64 m p = .ok v := by
  obtain ⟨x, hx⟩ := be32_isOk hr hlo (by omega)
  obtain ⟨y, hy⟩ := be32_isOk hr (p := p + 4) (by omega) (by omega)
  exact ⟨_, by rw [be64, hx, ok_bind, hy, ok_bind]; rfl⟩

/-- A 64-bit read touches only the eight bytes of the field. -/
theorem be64_restrict {m : Mem} {p lo hi : ℕ} (hlo : lo ≤ p) (hhi : p + 8 ≤ hi) :
    be64 (m.restrict lo hi) p = be64 m p := by
  rw [be64, be64, be32_restrict hlo (by omega), be32_restrict (by omega) (by omega)]

end Floss
