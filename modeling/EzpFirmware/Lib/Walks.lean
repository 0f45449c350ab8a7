import Mathlib.Data.Set.Finite.Basic
import Mathlib.Data.Fintype.EquivFin
import Mathlib.Tactic.Common

/-! # Walks along links

A walk goes from each point to the one that it links to, if there is one. Over
finitely many links it ends exactly if it never comes back to a point.
-/
namespace EzpFirmware.Lib

variable {α : Type*} (next : α → Option α)

/-- The point after a number of links. -/
def walk (a : α) : ℕ → Option α
  | 0 => some a
  | k + 1 => (walk a k).bind next

/-- The walk ends somewhere. -/
def WalkEnds (a : α) : Prop := ∃ n, walk next a n = none

variable {next}

@[simp] theorem walk_zero (a : α) : walk next a 0 = some a := rfl

/-- A walk is one link and the walk from there. -/
theorem walk_succ_of_some {a b : α} (h : next a = some b) (k : ℕ) :
    walk next a (k + 1) = walk next b k := by
  induction k with
  | zero => exact h
  | succ k ih =>
    rw [walk, ih]
    rfl

theorem walk_succ_of_none {a : α} (h : next a = none) (k : ℕ) : walk next a (k + 1) = none := by
  induction k with
  | zero => exact h
  | succ k ih =>
    rw [walk, ih]
    rfl

theorem walk_add {a b : α} {j : ℕ} (h : walk next a j = some b) (k : ℕ) :
    walk next a (j + k) = walk next b k := by
  induction k with
  | zero => exact h
  | succ k ih =>
    rw [← Nat.add_assoc, walk, ih]
    rfl

/-- A walk that comes back to a point is there again and again. -/
theorem walk_again {a b : α} {j d : ℕ} (hj : walk next a j = some b)
    (hd : walk next b d = some b) (m : ℕ) : walk next a (j + m * d) = some b := by
  induction m with
  | zero => simpa using hj
  | succ m ih =>
    rw [Nat.succ_mul, ← Nat.add_assoc, walk_add ih, hd]

/-- What has ended stays so. -/
theorem walk_none_of_le {a : α} {m n : ℕ} (h : walk next a m = none) (hmn : m ≤ n) :
    walk next a n = none := by
  induction n, hmn using Nat.le_induction with
  | base => exact h
  | succ n _ ih =>
    rw [walk, ih]
    rfl

/-- No point is met twice. -/
def NoReturn (next : α → Option α) (a : α) : Prop :=
  ∀ j k b, walk next a j = some b → walk next a k = some b → j = k

theorem NoReturn.of_ends {a : α} (h : WalkEnds next a) : NoReturn next a := by
  obtain ⟨n, hn⟩ := h
  have hlt : ∀ j k b, j < k → walk next a j = some b → walk next a k ≠ some b := by
    intro j k b hjk hj hk
    obtain ⟨d, rfl⟩ : ∃ d, k = j + d := ⟨k - j, by omega⟩
    have hd : walk next b d = some b := by rw [← walk_add hj, hk]
    have hfar := walk_again hj hd n
    have hle : n ≤ j + n * d := by
      have hpos : 1 ≤ d := by omega
      have hmul := Nat.mul_le_mul_left n hpos
      omega
    rw [walk_none_of_le hn hle] at hfar
    cases hfar
  intro j k b hj hk
  rcases Nat.lt_trichotomy j k with hjk | hjk | hjk
  · exact absurd hk (hlt j k b hjk hj)
  · exact hjk
  · exact absurd hj (hlt k j b hjk hk)

theorem WalkEnds.of_noReturn {a : α} (hfin : {b | (next b).isSome}.Finite)
    (h : NoReturn next a) : WalkEnds next a := by
  by_contra hnever
  have hsome : ∀ n, ∃ b, walk next a n = some b := by
    intro n
    apply Option.ne_none_iff_exists'.mp
    intro hnone
    exact hnever ⟨n, hnone⟩
  choose point hpoint using hsome
  have hlink : ∀ n, point n ∈ {b | (next b).isSome} := by
    intro n
    have hnext := hpoint (n + 1)
    rw [walk, hpoint n] at hnext
    change (next (point n)).isSome
    rw [Option.bind_some] at hnext
    rw [hnext]
    rfl
  have hinj : Function.Injective point := by
    intro j k hjk
    exact h j k (point j) (hpoint j) (hjk ▸ hpoint k)
  exact Set.infinite_of_injective_forall_mem hinj hlink hfin

end EzpFirmware.Lib
