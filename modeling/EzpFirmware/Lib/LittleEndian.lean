import Mathlib.Data.Nat.ModEq
import EzpFirmware.Lib.Memory

/-! # Little-endian numbers

A number of fixed width as bytes, least significant byte first. What does not
fit is cut off, and reading gives the number modulo the width.
-/
namespace EzpFirmware.Lib

/-- The lowest `w` bytes of a number. -/
def leBytes : ℕ → ℕ → List UInt8
  | 0, _ => []
  | w + 1, n => UInt8.ofNat n :: leBytes w (n / 256)

/-- The number that a run of bytes stands for. -/
def ofLe : List UInt8 → ℕ
  | [] => 0
  | b :: bs => b.toNat + 256 * ofLe bs

@[simp] theorem leBytes_length (w n : ℕ) : (leBytes w n).length = w := by
  induction w generalizing n with
  | zero => rfl
  | succ w ih => simp [leBytes, ih]

theorem ofLe_leBytes (w n : ℕ) : ofLe (leBytes w n) = n % 256 ^ w := by
  induction w generalizing n with
  | zero => simp [leBytes, ofLe, Nat.mod_one]
  | succ w ih =>
    have hpow : 256 ^ (w + 1) = 256 * 256 ^ w := by rw [Nat.pow_succ, Nat.mul_comm]
    rw [leBytes, ofLe, ih, UInt8.toNat_ofNat', hpow, Nat.mod_mul]

theorem ofLe_lt (l : List UInt8) : ofLe l < 256 ^ l.length := by
  induction l with
  | nil => simp [ofLe]
  | cons b bs ih =>
    have hb := b.toNat_lt
    rw [ofLe, List.length_cons, Nat.pow_succ]
    omega

theorem leBytes_ofLe (l : List UInt8) : leBytes l.length (ofLe l) = l := by
  induction l with
  | nil => rfl
  | cons b bs ih =>
    have hb := b.toNat_lt
    have hhead : UInt8.ofNat (b.toNat + 256 * ofLe bs) = b := by
      apply UInt8.toNat_inj.mp
      rw [UInt8.toNat_ofNat']
      omega
    have htail : (b.toNat + 256 * ofLe bs) / 256 = ofLe bs := by omega
    rw [List.length_cons, ofLe, leBytes, hhead, htail, ih]

/-- A write at the front. -/
theorem poke_zero {α : Type*} (b xs : List α) : poke b 0 xs = xs ++ b.drop xs.length := by
  rw [poke, List.take_zero, List.nil_append, Nat.zero_add]

/-- A write right behind a part that is kept. -/
theorem poke_fill {α : Type*} {a b : List α} {p : ℕ} (hp : p = a.length) (xs : List α) :
    poke (a ++ b) p xs = a ++ xs ++ b.drop xs.length := by
  subst hp
  rw [poke, List.take_left, List.drop_append, List.drop_eq_nil_of_le (by omega),
    Nat.add_sub_cancel_left, List.nil_append]

/-- The bytes of a memory from a position on. -/
def bytesAt (mem : ℕ → UInt8) (i n : ℕ) : List UInt8 := (List.range n).map fun k => mem (i + k)

@[simp] theorem bytesAt_length (mem : ℕ → UInt8) (i n : ℕ) : (bytesAt mem i n).length = n := by
  simp [bytesAt]

theorem bytesAt_add (mem : ℕ → UInt8) (i m n : ℕ) :
    bytesAt mem i (m + n) = bytesAt mem i m ++ bytesAt mem (i + m) n := by
  simp [bytesAt, List.range_add, Nat.add_assoc, Function.comp_def]

/-- A memory carries two parts one behind the other. -/
theorem bytesAt_append {mem : ℕ → UInt8} {i : ℕ} {a b : List UInt8} :
    bytesAt mem i (a ++ b).length = a ++ b ↔
      bytesAt mem i a.length = a ∧ bytesAt mem (i + a.length) b.length = b := by
  rw [List.length_append, bytesAt_add]
  constructor
  · intro h
    exact List.append_inj h (bytesAt_length mem i a.length)
  · rintro ⟨ha, hb⟩
    rw [ha, hb]

theorem bytesAt_cons {mem : ℕ → UInt8} {i : ℕ} {b : UInt8} {bs : List UInt8} :
    bytesAt mem i (b :: bs).length = b :: bs ↔
      mem i = b ∧ bytesAt mem (i + 1) bs.length = bs := by
  have hone : bytesAt mem i [b].length = [b] ↔ mem i = b := by simp [bytesAt]
  rw [← List.singleton_append, bytesAt_append, hone, List.length_singleton]

theorem take_bytesAt (mem : ℕ → UInt8) (i n k : ℕ) :
    (bytesAt mem i n).take k = bytesAt mem i (min n k) := by
  rw [bytesAt, bytesAt, ← List.map_take, List.take_range, Nat.min_comm]

/-- A region, and what lies behind it. -/
def regionThen (region : List UInt8) (behind : ℕ → UInt8) (i : ℕ) : UInt8 :=
  region.getD i (behind i)

theorem bytesAt_regionThen (region : List UInt8) (behind : ℕ → UInt8) :
    bytesAt (regionThen region behind) 0 region.length = region := by
  apply List.ext_getElem
  · simp
  · intro i hi hi'
    simp [bytesAt, regionThen, List.getD_eq_getElem?_getD, hi']

end EzpFirmware.Lib
