import EzpFirmware.Lib.LittleEndian

/-! # Blocks with cells that were never written

A block of the heap knows which of its bytes were written. What is read has to
be written before, and inside.
-/
namespace EzpFirmware.Lib

/-- A block of the heap. There is nothing in a cell that was not written. -/
structure Block where
  size : ℕ
  cell : ℕ → Option UInt8

namespace Block

/-- `malloc`. -/
def malloc (n : ℕ) : Block := ⟨n, fun _ => none⟩

/-- Bytes from a position on. -/
def put (b : Block) (pos : ℕ) (bytes : List UInt8) : Block :=
  ⟨b.size, fun i => if pos ≤ i ∧ i < pos + bytes.length then bytes[i - pos]? else b.cell i⟩

/-- A write that is made only inside of the block. -/
def write (b : Block) (pos : ℕ) (bytes : List UInt8) : Option Block :=
  if pos + bytes.length ≤ b.size then some (b.put pos bytes) else none

/-- `realloc`. -/
def realloc (b : Block) (n : ℕ) : Block :=
  ⟨n, fun i => if i < b.size ∧ i < n then b.cell i else none⟩

/-- The bytes from a position on, if all of them were written. -/
def read (b : Block) (pos : ℕ) : ℕ → Option (List UInt8)
  | 0 => some []
  | width + 1 => (b.cell pos).bind fun x => (read b (pos + 1) width).map (x :: ·)

/-- A number from a position on. -/
def number (b : Block) (pos width : ℕ) : Option ℕ := (b.read pos width).map ofLe

variable {b : Block} {bytes : List UInt8} {pos width : ℕ}

theorem put_inside {i : ℕ} (h : i < bytes.length) : (b.put pos bytes).cell (pos + i) = bytes[i]? := by
  simp [put, h]

theorem put_outside {i : ℕ} (h : i < pos ∨ pos + bytes.length ≤ i) :
    (b.put pos bytes).cell i = b.cell i := by
  have hnot : ¬(pos ≤ i ∧ i < pos + bytes.length) := by omega
  simp [put, hnot]

theorem put_nil : b.put pos [] = b := by
  have hcell : (b.put pos []).cell = b.cell := by
    funext i
    exact put_outside (by rw [List.length_nil]; omega)
  exact congrArg (Block.mk b.size) hcell

/-- What was behind the block is not carried over. -/
theorem realloc_behind {n i : ℕ} (h : b.size ≤ i) : (b.realloc n).cell i = none := by
  simp [realloc, not_lt.mpr h]

theorem realloc_front {n i : ℕ} (h : i < b.size) (hn : b.size ≤ n) :
    (b.realloc n).cell i = b.cell i := by
  simp [realloc, h, h.trans_le hn]

theorem write_inside (h : pos + bytes.length ≤ b.size) :
    b.write pos bytes = some (b.put pos bytes) := if_pos h

theorem write_outside (h : b.size < pos + bytes.length) : b.write pos bytes = none :=
  if_neg (not_le.mpr h)

/-- What was written is read. -/
theorem read_eq (h : ∀ k < bytes.length, b.cell (pos + k) = bytes[k]?) :
    b.read pos bytes.length = some bytes := by
  induction bytes generalizing pos with
  | nil => rfl
  | cons x bytes ih =>
    have hfirst : b.cell pos = some x := h 0 (Nat.zero_lt_succ _)
    have hrest : b.read (pos + 1) bytes.length = some bytes := ih fun k hk => by
      rw [Nat.add_assoc, Nat.add_comm 1]
      exact h (k + 1) (Nat.succ_lt_succ hk)
    rw [List.length_cons, read, hfirst, Option.bind_some, hrest]
    rfl

theorem read_length {bs : List UInt8} (h : b.read pos width = some bs) : bs.length = width := by
  induction width generalizing pos bs with
  | zero => rw [← Option.some.inj h, List.length_nil]
  | succ width ih =>
    obtain ⟨x, -, hx⟩ := Option.bind_eq_some_iff.mp h
    obtain ⟨rest, hrest, rfl⟩ := Option.map_eq_some_iff.mp hx
    rw [List.length_cons, ih hrest]

/-- What was not written is not read. -/
theorem read_none {k : ℕ} (hk : k < width) (h : b.cell (pos + k) = none) :
    b.read pos width = none := by
  induction width generalizing pos k with
  | zero => exact absurd hk (Nat.not_lt_zero k)
  | succ width ih =>
    rw [read]
    cases k with
    | zero =>
      rw [Nat.add_zero] at h
      rw [h]
      rfl
    | succ k =>
      rw [ih (Nat.lt_of_succ_lt_succ hk) (by rwa [Nat.add_assoc, Nat.add_comm 1])]
      cases b.cell pos <;> rfl

/-- A number in bytes that were written. -/
theorem number_eq {base : ℕ} (h : ∀ i < bytes.length, b.cell (base + i) = bytes[i]?)
    (hin : pos + width ≤ bytes.length) :
    b.number (base + pos) width = some (ofLe ((bytes.drop pos).take width)) := by
  have hlen : ((bytes.drop pos).take width).length = width := by
    rw [List.length_take, List.length_drop]
    omega
  have hread := @read_eq b ((bytes.drop pos).take width) (base + pos)
    fun k hk => by
      rw [hlen] at hk
      rw [Nat.add_assoc, h (pos + k) (by omega), List.getElem?_take_of_lt hk, List.getElem?_drop]
  rw [hlen] at hread
  rw [number, hread]
  rfl

theorem number_lt {n : ℕ} (h : b.number pos width = some n) : n < 256 ^ width := by
  obtain ⟨bs, hread, rfl⟩ := Option.map_eq_some_iff.mp h
  rw [← read_length hread]
  exact ofLe_lt bs

theorem number_none {k : ℕ} (hk : k < width) (h : b.cell (pos + k) = none) :
    b.number pos width = none := by
  rw [number, read_none hk h]
  rfl

end Block

end EzpFirmware.Lib
