import EzpFirmware.Lib.Numerals
import Mathlib.Algebra.Ring.Int.Defs

/-! # Numbers that are read

How the C library reads a number from a text: what it skips, which characters are
digits, and where it stops.
-/
namespace EzpFirmware.Lib

def PLUS : UInt8 := 0x2b

def SPACE : UInt8 := 0x20

/-- The value of a hexadecimal digit. -/
def hexDigit (b : UInt8) : Option UInt8 :=
  if 0x30 ≤ b ∧ b ≤ 0x39 then some (b - 0x30)
  else if 0x41 ≤ b ∧ b ≤ 0x46 then some (b - 0x37)
  else if 0x61 ≤ b ∧ b ≤ 0x66 then some (b - 0x57)
  else none

/-- `isspace`. -/
def isSpace (b : UInt8) : Bool := b = SPACE ∨ 0x09 ≤ b ∧ b ≤ 0x0d

/-- A digit. -/
def isDigit (b : UInt8) : Bool := 0x30 ≤ b ∧ b ≤ 0x39

/-- The number a text of digits starts with, as far as `limit` allows. -/
def digits (limit : ℕ) (s : List UInt8) : ℕ :=
  min ((s.takeWhile isDigit).foldl (fun n b => n * 10 + (b.toNat - 0x30)) 0) limit

/-- `atoi`. -/
def atoi (s : CStr) : ℤ :=
  match s.val.dropWhile fun b => b = SPACE ∨ 0x09 ≤ b ∧ b ≤ 0x0d with
  | [] => 0
  | b :: rest =>
    if b = 0x2d then -digits (2 ^ 31) rest
    else if b = PLUS then digits (2 ^ 31 - 1) rest
    else digits (2 ^ 31 - 1) (b :: rest)

/-- `%d` of `sscanf`: the number and what is behind it. -/
def scanInt (s : List UInt8) : Option (ℤ × List UInt8) :=
  let t := s.dropWhile isSpace
  let minus : Bool := t.head? = some 0x2d
  let t := if minus ∨ t.head? = some PLUS then t.tail else t
  if t.takeWhile isDigit = [] then none
  else
    some (if minus then -digits (2 ^ 31) t else digits (2 ^ 31 - 1) t, t.dropWhile isDigit)

/-! ## Numbers that are printed and read again -/

theorem decimal_val (n : ℕ) : (decimal n).val = numeral 10 (n + 1) n := by
  simp only [decimal, if_neg (Int.not_lt.mpr (Int.natCast_nonneg n)), Int.natAbs_natCast]

theorem isDigit_digitByte {d : ℕ} (hd : d < 10) : isDigit (digitByte d) = true := by
  have h := (digitByte_plain d (by omega)).2.2.2 hd
  simp [isDigit, h.1, h.2.1]

theorem digits_numeral {limit n : ℕ} (h : n ≤ limit) : digits limit (numeral 10 (n + 1) n) = n := by
  have hall : ∀ b ∈ numeral 10 (n + 1) n, isDigit b = true := by
    intro b hb
    obtain ⟨d, hd, rfl⟩ := mem_numeral (by decide) hb
    exact isDigit_digitByte hd
  have hvalue : ∀ d < 10, (digitByte d).toNat - 0x30 = d := fun d hd =>
    ((digitByte_plain d (by omega)).2.2.2 hd).2.2
  rw [digits, List.takeWhile_eq_self_iff.mpr hall, foldl_numeral (by decide) hvalue (by omega)]
  exact min_eq_left h

/-- An `int` that is printed is read back. -/
theorem atoi_decimal {n : ℤ} (hlow : -2 ^ 31 ≤ n) (hhigh : n < 2 ^ 31) : atoi (decimal n) = n := by
  by_cases hn : n < 0
  · have hminus : (decimal n).val = 0x2d :: numeral 10 (n.natAbs + 1) n.natAbs := by
      simp only [decimal, if_pos hn]
    simp only [atoi, hminus]
    rw [List.dropWhile_cons_of_neg (by decide)]
    simp only [if_true]
    rw [digits_numeral (by omega)]
    omega
  · have hdigits : (decimal n).val = numeral 10 (n.natAbs + 1) n.natAbs := by
      simp only [decimal, if_neg hn]
    have hread := @digits_numeral (2 ^ 31 - 1) n.natAbs (by omega)
    obtain ⟨b, rest, hcons⟩ := List.exists_cons_of_ne_nil (numeral_ne_nil 10 n.natAbs n.natAbs)
    obtain ⟨d, hd, hb⟩ := mem_numeral (by decide : 0 < 10) (hcons ▸ List.mem_cons_self)
    have hfirst : ∀ d < 10, ¬ (digitByte d = SPACE ∨ 0x09 ≤ digitByte d ∧ digitByte d ≤ 0x0d) ∧
        digitByte d ≠ 0x2d ∧ digitByte d ≠ PLUS := by decide
    rw [hcons] at hread
    simp only [atoi, hdigits, hcons]
    rw [List.dropWhile_cons_of_neg (by simpa [hb] using (hfirst d hd).1)]
    simp only
    rw [if_neg (hb ▸ (hfirst d hd).2.1), if_neg (hb ▸ (hfirst d hd).2.2), hread]
    omega

/-- What `atoi` gives is an `int`. -/
theorem atoi_bounds (s : CStr) : -2 ^ 31 ≤ atoi s ∧ atoi s < 2 ^ 31 := by
  have hdigits : ∀ limit l, digits limit l ≤ limit := fun _ _ => min_le_right _ _
  unfold atoi
  split
  · decide
  next b rest _ =>
    have hneg := hdigits (2 ^ 31) rest
    have hplus := hdigits (2 ^ 31 - 1) rest
    have hplain := hdigits (2 ^ 31 - 1) (b :: rest)
    split_ifs <;> omega

end EzpFirmware.Lib
