import EzpFirmware.Lib.CString
import Mathlib.Algebra.Ring.Nat

/-! # Numbers as texts

The digits of a number in a base, most significant one first, and what reading
them one by one gives back.
-/
namespace EzpFirmware.Lib

/-- The character of a digit. -/
def digitByte (d : ℕ) : UInt8 := UInt8.ofNat (if d < 10 then 0x30 + d else 0x41 + (d - 10))

/-- The digits of a number. It has no more digits than its size. -/
def numeral (base : ℕ) : ℕ → ℕ → List UInt8
  | 0, _ => []
  | fuel + 1, n => (if n < base then [] else numeral base fuel (n / base)) ++ [digitByte (n % base)]

@[simp] theorem numeral_zero (base n : ℕ) : numeral base 0 n = [] := rfl

theorem numeral_succ (base fuel n : ℕ) : numeral base (fuel + 1) n =
    (if n < base then [] else numeral base fuel (n / base)) ++ [digitByte (n % base)] := rfl

/-- Reading digit by digit gives the number back. -/
theorem foldl_numeral {base : ℕ} (hbase : 2 ≤ base) {value : UInt8 → ℕ}
    (hvalue : ∀ d < base, value (digitByte d) = d) {fuel n : ℕ} (h : n < fuel) :
    (numeral base fuel n).foldl (fun v b => v * base + value b) 0 = n := by
  induction fuel generalizing n with
  | zero => omega
  | succ fuel ih =>
    have hlast : value (digitByte (n % base)) = n % base := hvalue _ (Nat.mod_lt _ (by omega))
    rw [numeral_succ, List.foldl_append, List.foldl_cons, List.foldl_nil, hlast]
    by_cases hn : n < base
    · rw [if_pos hn, List.foldl_nil, Nat.mod_eq_of_lt hn, Nat.zero_mul, Nat.zero_add]
    · have hdiv : n / base < n := Nat.div_lt_self (by omega) hbase
      rw [if_neg hn, ih (by omega)]
      exact Nat.div_add_mod' n base

theorem mem_numeral {base fuel n : ℕ} (hbase : 0 < base) {b : UInt8} (h : b ∈ numeral base fuel n) :
    ∃ d < base, b = digitByte d := by
  induction fuel generalizing n with
  | zero => cases h
  | succ fuel ih =>
    rw [numeral_succ, List.mem_append, List.mem_singleton] at h
    rcases h with h | rfl
    · split at h
      · cases h
      · exact ih h
    · exact ⟨n % base, Nat.mod_lt n hbase, rfl⟩

theorem numeral_ne_nil (base fuel n : ℕ) : numeral base (fuel + 1) n ≠ [] := by
  rw [numeral_succ]
  exact List.append_ne_nil_of_right_ne_nil _ (List.cons_ne_nil _ _)

/-- A number below a power of the base has at most that many digits. -/
theorem numeral_length_le {base k : ℕ} {fuel n : ℕ} (h : n < base ^ (k + 1)) :
    (numeral base fuel n).length ≤ k + 1 := by
  induction k generalizing fuel n with
  | zero =>
    cases fuel with
    | zero => simp
    | succ fuel => simp [numeral_succ, show n < base by simpa using h]
  | succ k ih =>
    cases fuel with
    | zero => simp
    | succ fuel =>
      have hdiv := @ih fuel (n / base) (Nat.div_lt_of_lt_mul (by rwa [← Nat.pow_succ']))
      simp only [numeral_succ, List.length_append, List.length_singleton]
      split
      · simp
      · omega

/-- The digits of a number other than zero do not start with a zero. -/
theorem head?_numeral {base : ℕ} (hlow : 2 ≤ base) (hbase : base ≤ 16) {fuel n : ℕ} (hn : 0 < n)
    (hfuel : n < fuel) : (numeral base fuel n).head? ≠ some 0x30 := by
  induction fuel generalizing n with
  | zero => omega
  | succ fuel ih =>
    rw [numeral_succ]
    by_cases h : n < base
    · have hdigit : ∀ d < 16, 0 < d → digitByte d ≠ 0x30 := by decide
      rw [if_pos h, List.nil_append, List.head?_cons, Nat.mod_eq_of_lt h]
      simpa using hdigit n (by omega) hn
    · have hdiv : 0 < n / base := Nat.div_pos (by omega) (by omega)
      have hless : n / base < n := Nat.div_lt_self hn (by omega)
      obtain ⟨k, rfl⟩ := Nat.exists_eq_add_of_lt (show 0 < fuel by omega)
      rw [if_neg h, List.head?_append_of_ne_nil _ (numeral_ne_nil base _ _)]
      exact ih hdiv (by omega)

/-- The characters of digits up to hexadecimal ones. -/
theorem digitByte_plain : ∀ d < 16, digitByte d ≠ 0 ∧ digitByte d ≠ 0x5e ∧ digitByte d ≠ 0x7c ∧
    (d < 10 → 0x30 ≤ digitByte d ∧ digitByte d ≤ 0x39 ∧ (digitByte d).toNat - 0x30 = d) := by
  decide

theorem zero_not_mem_numeral {base fuel n : ℕ} (hpos : 0 < base) (hbase : base ≤ 16) :
    (0 : UInt8) ∉ numeral base fuel n := by
  intro h
  obtain ⟨d, hd, h0⟩ := mem_numeral hpos h
  exact (digitByte_plain d (by omega)).1 h0.symm

/-- A number as `%d` prints it. -/
def decimal (n : ℤ) : CStr :=
  let digits := numeral 10 (n.natAbs + 1) n.natAbs
  if n < 0 then ⟨0x2d :: digits, by simp [digits, zero_not_mem_numeral]⟩
  else ⟨digits, zero_not_mem_numeral (by decide) (by decide)⟩

/-- A number as `%04X` prints it. -/
def hex4 (n : ℕ) : CStr :=
  let digits := numeral 16 (n + 1) n
  ⟨List.replicate (4 - digits.length) 0x30 ++ digits, by
    simp [digits, zero_not_mem_numeral, List.mem_replicate]⟩

/-- A printed number has no byte but digits and a sign. -/
theorem mem_decimal {n : ℤ} {b : UInt8} (h : b ∈ (decimal n).val) :
    b = 0x2d ∨ ∃ d < 10, b = digitByte d := by
  by_cases hn : n < 0
  · simp only [decimal, if_pos hn] at h
    exact (List.mem_cons.mp h).imp_right (mem_numeral (by decide))
  · simp only [decimal, if_neg hn] at h
    exact .inr (mem_numeral (by decide) h)

theorem mem_hex4 {n : ℕ} {b : UInt8} (h : b ∈ (hex4 n).val) : ∃ d < 16, b = digitByte d := by
  rcases List.mem_append.mp h with h | h
  · exact ⟨0, by decide, List.eq_of_mem_replicate h⟩
  · exact mem_numeral (by decide) h

/-! ## Bytes as hexadecimal text

Two digits for each byte, the upper four bits first, in lower case.
-/

/-- The digit for four bits. -/
def lowerHex (n : ℕ) : UInt8 := UInt8.ofNat (if n < 10 then 0x30 + n else 0x61 + (n - 10))

/-- The digits of a run of bytes. -/
def hexBytes (bytes : List UInt8) : List UInt8 :=
  bytes.flatMap fun b => [lowerHex (b.toNat / 16), lowerHex (b.toNat % 16)]

theorem lowerHex_ne_zero : ∀ n < 16, lowerHex n ≠ 0 := by decide

@[simp] theorem hexBytes_nil : hexBytes [] = [] := rfl

theorem hexBytes_cons (b : UInt8) (bytes : List UInt8) :
    hexBytes (b :: bytes) = lowerHex (b.toNat / 16) :: lowerHex (b.toNat % 16) :: hexBytes bytes :=
  rfl

@[simp] theorem hexBytes_length (bytes : List UInt8) :
    (hexBytes bytes).length = 2 * bytes.length := by
  induction bytes with
  | nil => rfl
  | cons b bytes ih =>
    rw [hexBytes_cons, List.length_cons, List.length_cons, ih, List.length_cons]
    omega

theorem zero_notMem_hexBytes (bytes : List UInt8) : (0 : UInt8) ∉ hexBytes bytes := by
  rw [hexBytes, List.mem_flatMap]
  rintro ⟨b, -, hb⟩
  have hlt := b.toNat_lt
  rw [List.mem_cons, List.mem_singleton] at hb
  rcases hb with h | h
  · exact lowerHex_ne_zero _ (by omega) h.symm
  · exact lowerHex_ne_zero _ (by omega) h.symm

/-- The digits as a text. -/
def hexText (bytes : List UInt8) : CStr := ⟨hexBytes bytes, zero_notMem_hexBytes bytes⟩

/-- The digits of a byte. -/
theorem hexBytes_getElem? (bytes : List UInt8) : ∀ i,
    (hexBytes bytes)[2 * i]? = (bytes[i]?).map (fun b => lowerHex (b.toNat / 16)) ∧
      (hexBytes bytes)[2 * i + 1]? = (bytes[i]?).map fun b => lowerHex (b.toNat % 16) := by
  induction bytes with
  | nil => simp
  | cons b bytes ih =>
    intro i
    cases i with
    | zero => simp [hexBytes_cons]
    | succ i => simpa [hexBytes_cons, Nat.mul_add] using ih i

end EzpFirmware.Lib
