import EzpFirmware.Lib.Memory

/-! # Memories that record where they are written

A store overwrites a range and notes its positions. The loops here go over a memory
from the front, by single elements or by blocks of one width.
-/
namespace EzpFirmware.Lib

section Blocks

variable {α : Type*}

/-- Block `i` of a list, for blocks of `w` elements. -/
def block (w : ℕ) (l : List α) (i : ℕ) : List α := (l.drop (w * i)).take w

theorem blocks_length {w n : ℕ} {h : ℕ → List α} (hh : ∀ i < n, (h i).length = w) :
    ((List.range n).flatMap h).length = w * n := by
  induction n with
  | zero => simp
  | succ n ih =>
    rw [List.range_succ, List.flatMap_append, List.length_append,
      ih fun i hi => hh i (Nat.lt_succ_of_lt hi), Nat.mul_succ]
    simp [hh n (Nat.lt_succ_self n)]

/-- The blocks of a list that was put together from blocks. -/
theorem block_flatMap {w n i : ℕ} {h : ℕ → List α} (hh : ∀ i < n, (h i).length = w) (hi : i < n) :
    block w ((List.range n).flatMap h) i = h i := by
  have hsplit : List.range n = List.range i ++ i :: List.range' (i + 1) (n - i - 1) := by
    have happ := List.range'_append_1 (s := 0) (m := i) (n := n - i - 1 + 1)
    have hn : i + (n - i - 1 + 1) = n := by omega
    rw [Nat.zero_add, hn, List.range'_succ] at happ
    rw [List.range_eq_range', List.range_eq_range', happ]
  have hfront : ((List.range i).flatMap h).length = w * i :=
    blocks_length fun j hj => hh j (hj.trans hi)
  rw [block, hsplit, List.flatMap_append, List.drop_left' hfront, List.flatMap_cons,
    List.take_left' (hh i hi)]

/-- A list is its blocks one behind the other. -/
theorem flatMap_block {w n : ℕ} {l : List α} (h : w * n ≤ l.length) :
    (List.range n).flatMap (block w l) = l.take (w * n) := by
  induction n with
  | zero => simp
  | succ n ih =>
    rw [Nat.mul_succ] at h ⊢
    rw [List.range_succ, List.flatMap_append, ih (by omega), List.take_add]
    simp [block]

theorem block_length {w n i : ℕ} {l : List α} (h : w * n ≤ l.length) (hi : i < n) :
    (block w l i).length = w := by
  have hle : w * (i + 1) ≤ w * n := Nat.mul_le_mul_left w hi
  rw [Nat.mul_succ] at hle
  rw [block, List.length_take, List.length_drop]
  omega

end Blocks

/-- A memory from some address on, and every position stored to. -/
structure Traced (α : Type*) where
  mem : List α
  written : List ℕ

namespace Traced

variable {α : Type*}

/-- Store a run of elements. -/
def store (o : Traced α) (p : ℕ) (xs : List α) : Traced α :=
  ⟨poke o.mem p xs, o.written ++ List.range' p xs.length⟩

@[simp] theorem store_mem (o : Traced α) (p : ℕ) (xs : List α) :
    (o.store p xs).mem = poke o.mem p xs := rfl

theorem mem_store_written {o : Traced α} {p q : ℕ} {xs : List α} :
    q ∈ (o.store p xs).written ↔ q ∈ o.written ∨ p ≤ q ∧ q < p + xs.length := by
  rw [store, List.mem_append, List.mem_range'_1]

/-- Give the first `n` elements new values, one after the other. -/
def storeEach (f : ℕ → α → α) (d : α) (n : ℕ) (o : Traced α) : Traced α :=
  (List.range n).foldl (fun o i => o.store i [f i (o.mem.getD i d)]) o

/-- Rewrite the first `n` blocks of `w` elements, one after the other. -/
def storeBlocks (w : ℕ) (g : List α → List α) (n : ℕ) (o : Traced α) : Traced α :=
  (List.range n).foldl (fun o i => o.store (w * i) (g (block w o.mem i))) o

theorem storeEach_succ (f : ℕ → α → α) (d : α) (n : ℕ) (o : Traced α) :
    storeEach f d (n + 1) o = (storeEach f d n o).store n
      [f n ((storeEach f d n o).mem.getD n d)] := by
  simp [storeEach, List.range_succ]

theorem storeBlocks_succ (w : ℕ) (g : List α → List α) (n : ℕ) (o : Traced α) :
    storeBlocks w g (n + 1) o = (storeBlocks w g n o).store (w * n)
      (g (block w (storeBlocks w g n o).mem n)) := by
  simp [storeBlocks, List.range_succ]

/-- The new values, and the rest as it was. -/
theorem storeEach_mem (f : ℕ → α → α) (d : α) {o : Traced α} {n : ℕ} (hn : n ≤ o.mem.length) :
    (storeEach f d n o).mem =
      (List.range n).map (fun i => f i (o.mem.getD i d)) ++ o.mem.drop n := by
  induction n with
  | zero => simp [storeEach]
  | succ n ih =>
    have hget : (storeEach f d n o).mem.getD n d = o.mem.getD n d := by
      simp [ih (by omega), List.getD_eq_getElem?_getD, List.getElem?_append]
    have hfront : ((List.range n).map fun i => f i (o.mem.getD i d)).length = n := by simp
    rw [storeEach_succ, store_mem, hget, ih (by omega), poke, List.take_left' hfront,
      List.length_singleton, List.drop_append, hfront, List.drop_eq_nil_of_le (by simp),
      List.nil_append, List.drop_drop, List.range_succ, List.map_append]
    simp

theorem mem_storeEach_written {f : ℕ → α → α} {d : α} {n q : ℕ} {o : Traced α} :
    q ∈ (storeEach f d n o).written ↔ q ∈ o.written ∨ q < n := by
  induction n with
  | zero => simp [storeEach]
  | succ n ih =>
    have hend : q < n ∨ n ≤ q ∧ q < n + 1 ↔ q < n + 1 := by omega
    rw [storeEach_succ, mem_store_written, ih, List.length_singleton, or_assoc, hend]

variable {w : ℕ} {g : List α → List α}

/-- Blocks are written next to each other. -/
theorem mem_storeBlocks_written (hg : ∀ b, (g b).length = w) {n q : ℕ} {o : Traced α} :
    q ∈ (storeBlocks w g n o).written ↔ q ∈ o.written ∨ q < w * n := by
  induction n with
  | zero => simp [storeBlocks]
  | succ n ih =>
    have hend : q < w * n ∨ w * n ≤ q ∧ q < w * n + w ↔ q < w * n + w := by omega
    rw [storeBlocks_succ, mem_store_written, ih, hg, Nat.mul_succ, or_assoc, hend]

/-- The blocks one behind the other, and the rest as it was. -/
theorem storeBlocks_mem (hg : ∀ b, (g b).length = w) {n : ℕ} {o : Traced α}
    (hn : w * n ≤ o.mem.length) :
    (storeBlocks w g n o).mem =
      (List.range n).flatMap (fun i => g (block w o.mem i)) ++ o.mem.drop (w * n) := by
  induction n with
  | zero => simp [storeBlocks]
  | succ n ih =>
    rw [Nat.mul_succ] at hn
    have hfront : ((List.range n).flatMap fun i => g (block w o.mem i)).length = w * n :=
      blocks_length fun i _ => hg _
    have hrest : (storeBlocks w g n o).mem.drop (w * n) = o.mem.drop (w * n) := by
      rw [ih (by omega), List.drop_left' hfront]
    rw [storeBlocks_succ, store_mem, block, hrest, poke, hg, ← List.drop_drop, hrest,
      List.drop_drop, ih (by omega), List.take_left' hfront, List.range_succ,
      List.flatMap_append, Nat.mul_succ]
    simp [block]

end Traced

end EzpFirmware.Lib
