import Mathlib.Algebra.Group.Fin.Basic
import Mathlib.Algebra.Ring.Nat
import Mathlib.Data.Fin.Basic
import Mathlib.Order.Defs.LinearOrder

/-! # Rings of entries with keys that grow

A ring of slots keeps the entries with the greatest keys. An entry with a new key
goes to the slot behind the tail, over the oldest entry.
-/
namespace EzpFirmware.Lib.KeyedRing

variable {n : ℕ} [NeZero n] {σ κ : Type*} [LinearOrder κ]

/-- The slots hold the entries, the newest one at the tail. Slots that were never used hold
an entry whose key is below all others. -/
structure Holds (key : σ → κ) (empty : σ) (data : Fin n → σ) (tail : Fin n) (entries : List σ) :
    Prop where
  slot : ∀ j : Fin n, data (tail - j) = entries.getD j empty
  sorted : entries.Pairwise fun a b => key b < key a
  filled : ∀ d ∈ entries, key empty < key d

variable {key : σ → κ} {empty d e : σ} {data : Fin n → σ} {tail : Fin n} {entries : List σ}

omit [NeZero n] in
theorem Holds.nil (key : σ → κ) (empty : σ) (tail : Fin n) :
    Holds key empty (fun _ => empty) tail [] :=
  ⟨fun _ => rfl, List.Pairwise.nil, fun _ hd => (List.not_mem_nil hd).elim⟩

/-- Every slot is the tail or one of those before it. -/
theorem Holds.slot_eq (h : Holds key empty data tail entries) (i : Fin n) :
    data i = entries.getD (tail - i : Fin n) empty := by
  have hslot := h.slot (tail - i)
  rwa [sub_sub_cancel] at hslot

theorem Holds.tail_eq (h : Holds key empty data tail (d :: entries)) : data tail = d := by
  have hslot := h.slot 0
  rwa [sub_zero] at hslot

/-- A key above all others is in no slot. -/
theorem Holds.key_ne {k : κ} (h : Holds key empty data tail entries) (hempty : key empty < k)
    (hnew : ∀ d ∈ entries, key d < k) (i : Fin n) : key (data i) ≠ k := by
  rw [h.slot_eq, List.getD_eq_getElem?_getD]
  cases hget : entries[(tail - i : Fin n).val]? with
  | none => exact hempty.ne
  | some d => exact (hnew d (List.mem_of_getElem? hget)).ne

/-- The newest entry is replaced by one with the same key. -/
theorem Holds.touch (h : Holds key empty data tail (d :: entries)) (hkey : key e = key d) :
    Holds key empty (Function.update data tail e) tail (e :: entries) := by
  obtain ⟨hslot, hsorted, hfilled⟩ := h
  rw [List.pairwise_cons] at hsorted
  refine ⟨?_, ?_, ?_⟩
  · intro j
    by_cases hj : j = 0
    · subst hj
      rw [sub_zero, Function.update_self]
      rfl
    · have hne : tail - j ≠ tail := fun heq => hj (sub_eq_self.mp heq)
      have hpos : j.val ≠ 0 := fun h0 => hj (Fin.ext h0)
      rw [Function.update_of_ne hne, hslot j]
      obtain ⟨k, hk⟩ := Nat.exists_eq_succ_of_ne_zero hpos
      rw [hk]
      rfl
  · rw [List.pairwise_cons]
    refine ⟨?_, hsorted.2⟩
    intro b hb
    rw [hkey]
    exact hsorted.1 b hb
  · intro b hb
    rcases List.mem_cons.mp hb with rfl | hb
    · rw [hkey]
      exact hfilled d List.mem_cons_self
    · exact hfilled b (List.mem_cons_of_mem d hb)

/-- An entry with a new key takes the slot behind the tail. -/
theorem Holds.push (h : Holds key empty data tail entries) (hempty : key empty < key e)
    (hnew : ∀ d ∈ entries, key d < key e) :
    Holds key empty (Function.update data (tail + 1) e) (tail + 1) (e :: entries) := by
  obtain ⟨hslot, hsorted, hfilled⟩ := h
  refine ⟨?_, ?_, ?_⟩
  · intro j
    by_cases hj : j = 0
    · subst hj
      rw [sub_zero, Function.update_self]
      rfl
    · have hne : tail + 1 - j ≠ tail + 1 := fun heq => hj (sub_eq_self.mp heq)
      have hback : tail + 1 - j = tail - (j - 1) := by
        rw [sub_sub_eq_add_sub]
      have hpred : (j - 1).val + 1 = j.val := by
        have hpos : j.val ≠ 0 := fun h0 => hj (Fin.ext h0)
        have := Fin.val_sub_one_of_ne_zero hj
        omega
      rw [Function.update_of_ne hne, hback, hslot, ← hpred]
      rfl
  · rw [List.pairwise_cons]
    exact ⟨hnew, hsorted⟩
  · intro b hb
    rcases List.mem_cons.mp hb with rfl | hb
    · exact hempty
    · exact hfilled b hb

/-- Each of the newest entries is in one slot, and its key in no other. -/
theorem Holds.unique {k : ℕ} (h : Holds key empty data tail entries) (hk : k < n)
    (hget : entries[k]? = some d) :
    ∃ i, data i = d ∧ ∀ j, key (data j) = key d → j = i := by
  refine ⟨tail - ⟨k, hk⟩, ?_, ?_⟩
  · rw [h.slot, List.getD_eq_getElem?_getD]
    exact congrArg (Option.getD · empty) hget
  · intro j hj
    rw [h.slot_eq, List.getD_eq_getElem?_getD] at hj
    cases hother : entries[(tail - j : Fin n).val]? with
    | none =>
      rw [hother] at hj
      exact absurd hj (h.filled d (List.mem_of_getElem? hget)).ne
    | some d' =>
      rw [hother] at hj
      have hsame : (tail - j : Fin n).val = k := by
        have hlt : (tail - j : Fin n).val < entries.length := (List.getElem?_eq_some_iff.mp hother).1
        have hkl : k < entries.length := (List.getElem?_eq_some_iff.mp hget).1
        have hpair := List.pairwise_iff_getElem.mp h.sorted
        rw [List.getElem?_eq_getElem hlt, Option.some_inj] at hother
        rw [List.getElem?_eq_getElem hkl, Option.some_inj] at hget
        change key d' = key d at hj
        rcases lt_trichotomy (tail - j : Fin n).val k with hless | heq | hmore
        · have := hpair _ _ hlt hkl hless
          rw [hother, hget, hj] at this
          exact absurd this (lt_irrefl _)
        · exact heq
        · have := hpair _ _ hkl hlt hmore
          rw [hother, hget, hj] at this
          exact absurd this (lt_irrefl _)
      have hslot : tail - j = ⟨k, hk⟩ := Fin.ext hsame
      rw [← hslot, sub_sub_cancel]

end EzpFirmware.Lib.KeyedRing
