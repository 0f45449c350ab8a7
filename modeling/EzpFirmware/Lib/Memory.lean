import Mathlib.Data.List.TakeWhile
import Mathlib.Data.List.Infix

/-! # Byte regions

A fixed-size buffer is a list. `poke` overwrites a range in place and `Holds`
says that a range carries given contents; a write leaves every range that ends
in front of it alone, which is all a bump allocator needs.
-/
namespace EzpFirmware.Lib

variable {α : Type*}

/-- Overwrite `mem` with `xs`, starting at position `p`. -/
def poke (mem : List α) (p : ℕ) (xs : List α) : List α :=
  mem.take p ++ xs ++ mem.drop (p + xs.length)

/-- Position `p` of `mem` carries `xs`. -/
def Holds (mem : List α) (p : ℕ) (xs : List α) : Prop := xs <+: mem.drop p

theorem poke_length {mem : List α} {p : ℕ} {xs : List α} (h : p + xs.length ≤ mem.length) :
    (poke mem p xs).length = mem.length := by
  simp only [poke, List.length_append, List.length_take, List.length_drop]
  omega

/-- What stands in front of the end of a write. -/
theorem take_poke {mem : List α} {p : ℕ} (xs : List α) (h : p ≤ mem.length) :
    (poke mem p xs).take (p + xs.length) = mem.take p ++ xs := by
  have hlen : (mem.take p ++ xs).length = p + xs.length := by
    rw [List.length_append, List.length_take_of_le h]
  rw [poke, ← hlen, List.take_left]

theorem poke_holds {mem : List α} {p : ℕ} (xs : List α) (h : p ≤ mem.length) :
    Holds (poke mem p xs) p xs := by
  have hp : (mem.take p).length = p := by simp [h]
  rw [Holds, poke, List.append_assoc, List.drop_append, hp]
  simp [List.drop_eq_nil_of_le hp.le]

/-- A write at or behind the end of a range does not change what the range holds. -/
theorem Holds.poke {mem : List α} {p q : ℕ} {xs ys : List α} (h : Holds mem p xs)
    (hp : p + xs.length ≤ q) (hq : q ≤ mem.length) : Holds (poke mem q ys) p xs := by
  obtain ⟨rest, hr⟩ := h
  have hl := congrArg List.length hr
  simp only [List.length_append, List.length_drop] at hl
  have ht : (mem.take q).drop p = xs ++ rest.take (q - p - xs.length) := by
    rw [List.drop_take, ← hr, List.take_append]
    rw [List.take_of_length_le (by omega)]
  refine ⟨rest.take (q - p - xs.length) ++ (ys ++ mem.drop (q + ys.length)), ?_⟩
  rw [Lib.poke, List.append_assoc, List.drop_append_of_le_length (by simp; omega), ht,
    List.append_assoc]

/-- What stands where after a write. -/
theorem getElem?_poke {mem xs : List α} {p : ℕ} (h : p + xs.length ≤ mem.length) (i : ℕ) :
    (poke mem p xs)[i]? = if p ≤ i ∧ i < p + xs.length then xs[i - p]? else mem[i]? := by
  have hp : (mem.take p).length = p := List.length_take_of_le (by omega)
  rw [poke, List.getElem?_append, List.getElem?_append, List.length_append, hp]
  by_cases hfront : i < p
  · simp [hfront, Nat.not_le.mpr hfront, Nat.lt_add_right]
  · by_cases hin : i < p + xs.length
    · simp [hfront, hin, Nat.le_of_not_lt hfront]
    · have hback : p + xs.length + (i - (p + xs.length)) = i := by omega
      simp [hin, hback]

/-- A range holds its contents byte by byte. -/
theorem holds_iff_getElem? {mem xs : List α} {p : ℕ} :
    Holds mem p xs ↔ ∀ i < xs.length, mem[p + i]? = xs[i]? := by
  rw [Holds, List.prefix_iff_getElem?]
  simp only [List.getElem?_drop]
  constructor
  · intro h i hi
    rw [h i hi, List.getElem?_eq_getElem hi]
  · intro h i hi
    rw [h i hi, List.getElem?_eq_getElem hi]

/-- A memory that agrees with another one on a range holds the same there. -/
theorem Holds.agree {mem mem' xs : List α} {p : ℕ} (h : Holds mem p xs)
    (hagree : ∀ i, p ≤ i → i < p + xs.length → mem'[i]? = mem[i]?) : Holds mem' p xs := by
  rw [holds_iff_getElem?] at h ⊢
  intro i hi
  rw [hagree _ (Nat.le_add_right _ _) (by omega), h i hi]

theorem holds_nil (mem : List α) (p : ℕ) : Holds mem p [] := List.nil_prefix

theorem Holds.append {mem xs ys : List α} {p : ℕ} (h : Holds mem p xs)
    (h' : Holds mem (p + xs.length) ys) : Holds mem p (xs ++ ys) := by
  rw [holds_iff_getElem?] at h h' ⊢
  intro i hi
  rw [List.getElem?_append]
  split_ifs with hin
  · exact h i hin
  · rw [List.length_append] at hi
    have hback : p + xs.length + (i - xs.length) = p + i := by omega
    rw [← h' _ (by omega), hback]

/-- A write with nothing to write. -/
theorem poke_nil (mem : List α) (p : ℕ) : poke mem p [] = mem := by
  rw [poke, List.append_nil, List.length_nil, Nat.add_zero, List.take_append_drop]

/-- The region of `n` elements that a function describes. Irreducible, because comparing two regions
must not count through them. -/
@[irreducible] def tabulate (n : ℕ) (f : ℕ → α) : List α := (List.range n).map f

theorem tabulate_length (n : ℕ) (f : ℕ → α) : (tabulate n f).length = n := by simp [tabulate]

/-- A region starts like `l` where its description says so. -/
theorem take_tabulate {l : List α} {f : ℕ → α} {d : α} {n k : ℕ} (hn : l.length = n)
    (hf : ∀ j < k, f j = l.getD j d) : (tabulate n f).take k = l.take k := by
  apply List.ext_getElem
  · simp [tabulate_length, hn]
  · intro j hj hj'
    rw [List.length_take] at hj'
    have hl : j < l.length := by omega
    simp [tabulate, hf j (by omega), List.getD_eq_getElem?_getD, hl]

end EzpFirmware.Lib
