import Mathlib.Algebra.BigOperators.Group.List.Basic
import Mathlib.Algebra.Ring.Nat
import Mathlib.Data.List.Chain
import Mathlib.Algebra.Order.Monoid.Defs

/-! # Counters that wrap around

Totals are seen through a counter that starts again after its greatest value. A
difference that leaves out the step from the greatest value to zero is one short
for each time the counter wraps around.
-/
namespace EzpFirmware.Lib

/-- A difference across a wrap without the step from the greatest value to zero. -/
def shortGap (size c sc : ℕ) : ℕ := if c < sc then (size - 1 - sc) + c else c - sc

/-- The differences along totals that are seen through a counter. -/
def shortGaps (size : ℕ) : ℕ → List ℕ → List ℕ
  | _, [] => []
  | a, b :: l => shortGap size (b % size) (a % size) :: shortGaps size b l

variable {size a b z : ℕ} {l : List ℕ}

theorem shortGap_le (hsize : 0 < size) (h : a ≤ b) :
    shortGap size (b % size) (a % size) ≤ b - a := by
  have ha := Nat.div_add_mod a size
  have hb := Nat.div_add_mod b size
  have hlt := Nat.mod_lt a hsize
  have hpages : size * (a / size) ≤ size * (b / size) :=
    Nat.mul_le_mul_left size (Nat.div_le_div_right h)
  unfold shortGap
  split
  case isTrue hwrap =>
    have hpage : a / size + 1 ≤ b / size := by
      by_contra hle
      have heq : a / size = b / size :=
        le_antisymm (Nat.div_le_div_right h) (Nat.lt_succ_iff.mp (not_le.mp hle))
      rw [heq] at ha
      omega
    have hmul := Nat.mul_le_mul_left size hpage
    rw [Nat.mul_add, Nat.mul_one] at hmul
    omega
  case isFalse hstay => omega

/-- A difference is right if and only if the counter has not wrapped around. -/
theorem shortGap_eq_iff (hsize : 0 < size) (h : a ≤ b) :
    shortGap size (b % size) (a % size) = b - a ↔ b / size = a / size := by
  have ha := Nat.div_add_mod a size
  have hb := Nat.div_add_mod b size
  have hlt := Nat.mod_lt a hsize
  constructor
  · intro heq
    by_contra hne
    have hpage : a / size + 1 ≤ b / size :=
      Nat.succ_le_of_lt (lt_of_le_of_ne (Nat.div_le_div_right h) (Ne.symm hne))
    have hmul := Nat.mul_le_mul_left size hpage
    rw [Nat.mul_add, Nat.mul_one] at hmul
    unfold shortGap at heq
    split at heq <;> omega
  · intro heq
    rw [heq] at hb
    rw [shortGap, if_neg (by omega)]
    omega

theorem shortGaps_sum_le (hsize : 0 < size) (h : (a :: l).IsChain (· ≤ ·)) :
    (shortGaps size a l).sum + a ≤ l.getLastD a := by
  induction l generalizing a with
  | nil => simp [shortGaps]
  | cons b l ih =>
    rw [List.isChain_cons_cons] at h
    have hgap := shortGap_le hsize h.1
    have hrest := ih h.2
    have hle := h.1
    rw [shortGaps, List.sum_cons, List.getLastD_cons]
    omega

/-- The differences add up to what was counted if and only if the counter never wrapped
around and the last total is the one that was to be reached. -/
theorem shortGaps_sum_eq_iff (hsize : 0 < size) (h : (a :: l).IsChain (· ≤ ·))
    (hz : l.getLastD a ≤ z) :
    (shortGaps size a l).sum = z - a ↔ (∀ b ∈ l, b / size = a / size) ∧ l.getLastD a = z := by
  induction l generalizing a with
  | nil =>
    rw [List.getLastD_nil] at hz
    simp only [shortGaps, List.sum_nil, List.not_mem_nil, List.getLastD_nil]
    constructor
    · intro h0
      exact ⟨fun _ hb => hb.elim, by omega⟩
    · rintro ⟨-, rfl⟩
      exact (Nat.sub_self a).symm
  | cons b l ih =>
    rw [List.isChain_cons_cons] at h
    obtain ⟨hle, hchain⟩ := h
    rw [List.getLastD_cons] at hz ⊢
    have hsum := shortGaps_sum_le hsize hchain
    have hgap := shortGap_le hsize hle
    have hfirst := shortGap_eq_iff hsize hle
    have hrest := ih hchain hz
    rw [shortGaps, List.sum_cons]
    constructor
    · intro heq
      have hb : b / size = a / size := hfirst.mp (by omega)
      obtain ⟨hpages, hlast⟩ := hrest.mp (by omega)
      refine ⟨?_, hlast⟩
      intro c hc
      rcases List.mem_cons.mp hc with rfl | hc
      · exact hb
      · exact (hpages c hc).trans hb
    · rintro ⟨hpages, hlast⟩
      have hb := hpages b List.mem_cons_self
      have hg := hfirst.mpr hb
      have hs := hrest.mpr ⟨fun c hc => (hpages c (List.mem_cons_of_mem b hc)).trans hb.symm, hlast⟩
      omega

/-- Totals that do not fall are no greater than the last one. -/
theorem getLastD_le_of_sublist {l' : List ℕ} (h : (a :: l).IsChain (· ≤ ·)) (hsub : l'.Sublist l)
    (hle : b ≤ a) : l'.getLastD b ≤ l.getLastD a := by
  induction hsub generalizing a b with
  | slnil => exact hle
  | cons c hsub ih =>
    rw [List.isChain_cons_cons] at h
    rw [List.getLastD_cons]
    exact ih h.2 (hle.trans h.1)
  | cons_cons c hsub ih =>
    rw [List.isChain_cons_cons] at h
    rw [List.getLastD_cons, List.getLastD_cons]
    exact ih h.2 le_rfl

end EzpFirmware.Lib
