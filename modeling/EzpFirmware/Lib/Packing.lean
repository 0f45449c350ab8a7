import Mathlib.Data.List.Basic
import Mathlib.Data.List.Perm.Subperm
import Mathlib.Algebra.Order.Group.Nat
import Mathlib.Algebra.BigOperators.Group.List.Basic
import Mathlib.Algebra.Ring.Nat

/-! # Greedy packing of chains

A writer with a fixed capacity walks through several chains. Inside a chain it
stops at the first item that no longer fits, but goes on with the next chain.
What it keeps is a sublist that never exceeds the capacity, and it keeps
everything exactly when everything fits.
-/
namespace EzpFirmware.Lib

variable {E : Type*} (size : E → ℕ) (cap : ℕ)

def totalSize (l : List E) : ℕ := (l.map size).sum

/-- Items of one chain that are written, and the fill level after them. -/
def packChain : ℕ → List E → List E × ℕ
  | used, [] => ([], used)
  | used, e :: es =>
    if used + size e > cap then ([], used)
    else
      let r := packChain (used + size e) es
      (e :: r.1, r.2)

/-- The chains in turn, each starting at the level the one before it left. -/
def packChains : ℕ → List (List E) → List E × ℕ
  | used, [] => ([], used)
  | used, c :: cs =>
    let a := packChain size cap used c
    let b := packChains a.2 cs
    (a.1 ++ b.1, b.2)

variable {size cap}

theorem packChain_cons (used : ℕ) (e : E) (es : List E) : packChain size cap used (e :: es) =
    if used + size e > cap then ([], used)
    else (e :: (packChain size cap (used + size e) es).1,
      (packChain size cap (used + size e) es).2) := rfl

theorem packChains_cons (used : ℕ) (c : List E) (cs : List (List E)) :
    packChains size cap used (c :: cs) =
      ((packChain size cap used c).1 ++ (packChains size cap (packChain size cap used c).2 cs).1,
        (packChains size cap (packChain size cap used c).2 cs).2) := rfl

@[simp] theorem totalSize_nil : totalSize size [] = 0 := rfl

@[simp] theorem totalSize_cons (e : E) (l : List E) :
    totalSize size (e :: l) = size e + totalSize size l := by
  simp [totalSize]

@[simp] theorem totalSize_append (a b : List E) :
    totalSize size (a ++ b) = totalSize size a + totalSize size b := by
  simp [totalSize]

theorem totalSize_sublist {a b : List E} (h : a.Sublist b) :
    totalSize size a ≤ totalSize size b := by
  induction h with
  | slnil => exact le_rfl
  | cons e _ ih => exact ih.trans (by rw [totalSize_cons]; omega)
  | cons_cons e _ ih =>
    rw [totalSize_cons, totalSize_cons]
    omega

theorem totalSize_perm {a b : List E} (h : a.Perm b) : totalSize size a = totalSize size b :=
  (h.map size).sum_eq

/-- Distinct items all found in another list weigh no more than that list. -/
theorem totalSize_le_of_subset {a b : List E} (ha : a.Nodup) (h : a ⊆ b) :
    totalSize size a ≤ totalSize size b := by
  obtain ⟨c, hc, hs⟩ := List.subperm_of_subset ha h
  exact totalSize_perm hc ▸ totalSize_sublist hs

theorem packChain_used (l : List E) (used : ℕ) :
    (packChain size cap used l).2 = used + totalSize size (packChain size cap used l).1 := by
  induction l generalizing used with
  | nil => rfl
  | cons e es ih =>
    simp only [packChain_cons]
    split
    case isTrue => rfl
    case isFalse =>
      rw [ih, totalSize_cons]
      omega

theorem packChain_le (l : List E) {used : ℕ} (h : used ≤ cap) :
    (packChain size cap used l).2 ≤ cap := by
  induction l generalizing used with
  | nil => exact h
  | cons e es ih =>
    simp only [packChain_cons]
    split
    case isTrue => exact h
    case isFalse hf => exact ih (by omega)

theorem packChain_front (l : List E) (used : ℕ) : (packChain size cap used l).1 <+: l := by
  induction l generalizing used with
  | nil => exact List.prefix_rfl
  | cons e es ih =>
    simp only [packChain_cons]
    split
    case isTrue => exact List.nil_prefix
    case isFalse => exact List.prefix_cons_inj e |>.mpr (ih _)

theorem packChain_all {l : List E} {used : ℕ} (h : used + totalSize size l ≤ cap) :
    packChain size cap used l = (l, used + totalSize size l) := by
  induction l generalizing used with
  | nil => rfl
  | cons e es ih =>
    rw [totalSize_cons] at h
    have hn : ¬ used + size e > cap := by omega
    simp only [packChain_cons, if_neg hn, totalSize_cons]
    rw [ih (by omega), Nat.add_assoc]

theorem packChains_used (cs : List (List E)) (used : ℕ) :
    (packChains size cap used cs).2 = used + totalSize size (packChains size cap used cs).1 := by
  induction cs generalizing used with
  | nil => rfl
  | cons c cs ih =>
    simp only [packChains_cons, totalSize_append]
    rw [ih, packChain_used]
    omega

theorem packChains_le (cs : List (List E)) {used : ℕ} (h : used ≤ cap) :
    (packChains size cap used cs).2 ≤ cap := by
  induction cs generalizing used with
  | nil => exact h
  | cons c cs ih => exact ih (packChain_le c h)

theorem packChains_sublist (cs : List (List E)) (used : ℕ) :
    (packChains size cap used cs).1.Sublist cs.flatten := by
  induction cs generalizing used with
  | nil => exact List.Sublist.refl _
  | cons c cs ih =>
    simp only [packChains_cons, List.flatten_cons]
    exact (packChain_front c used).sublist.append (ih _)

/-- Everything is kept when the total fits. -/
theorem packChains_all {cs : List (List E)} {used : ℕ}
    (h : used + totalSize size cs.flatten ≤ cap) :
    (packChains size cap used cs).1 = cs.flatten := by
  induction cs generalizing used with
  | nil => rfl
  | cons c cs ih =>
    rw [List.flatten_cons, totalSize_append] at h
    simp only [packChains_cons, List.flatten_cons]
    rw [packChain_all (by omega), ih (by omega)]

/-- Only what fits can be kept whole. -/
theorem packChains_all_iff {cs : List (List E)} {used : ℕ} (hu : used ≤ cap) :
    (packChains size cap used cs).1 = cs.flatten ↔ used + totalSize size cs.flatten ≤ cap := by
  refine ⟨fun h => ?_, packChains_all⟩
  have hle : (packChains size cap used cs).2 ≤ cap := packChains_le cs hu
  rwa [packChains_used, h] at hle

/-- Nothing more than the capacity is ever kept. -/
theorem packChains_total_le (cs : List (List E)) {used : ℕ} (h : used ≤ cap) :
    used + totalSize size (packChains size cap used cs).1 ≤ cap :=
  packChains_used cs used ▸ packChains_le cs h

end EzpFirmware.Lib
