import EzpFirmware.Lib.CString
import EzpFirmware.Lib.Memory

/-! # Strings one behind the other

A search for a terminator ends with the string that the place it starts from
lies in. Writes that keep to the middle of a region leave what stands in front
and behind.
-/
namespace EzpFirmware.Lib

/-- A write that is made only inside of the region. -/
def pokeIn {α : Type*} (mem : List α) (p : ℕ) (xs : List α) : Option (List α) :=
  if p + xs.length ≤ mem.length then some (poke mem p xs) else none

theorem pokeIn_length {α : Type*} {mem mem' : List α} {p : ℕ} {xs : List α}
    (h : pokeIn mem p xs = some mem') : mem'.length = mem.length := by
  rw [pokeIn, Option.ite_none_right_eq_some] at h
  obtain ⟨hinside, hpoke⟩ := h
  rw [← Option.some.inj hpoke, poke_length hinside]

theorem pokeIn_middle {α : Type*} (x : List α) {y xs : List α} (z : List α)
    (h : y.length = xs.length) : pokeIn (x ++ y ++ z) x.length xs = some (x ++ xs ++ z) := by
  have hinside : x.length + xs.length ≤ (x ++ y ++ z).length := by
    rw [List.length_append, List.length_append]
    omega
  have hbehind : (x ++ y ++ z).drop (x.length + xs.length) = z := by
    rw [← h, ← List.length_append, List.drop_left]
  rw [pokeIn, if_pos hinside, poke, hbehind, List.append_assoc x y z, List.take_left]

/-- `memchr` for the terminator: its first place from `start` on. -/
def memchr (mem : List UInt8) (start : ℕ) : Option ℕ :=
  ((mem.drop start).findIdx? (· == 0)).map (start + ·)

namespace CStr

/-- The text from `n` on. -/
def skip (n : ℕ) (s : CStr) : CStr := ⟨s.val.drop n, fun h => s.property (List.mem_of_mem_drop h)⟩

theorem take_append_skip (n : ℕ) (s : CStr) : (s.take n).append (s.skip n) = s :=
  Subtype.ext (List.take_append_drop n s.val)

theorem skip_len (n : ℕ) (s : CStr) : (s.skip n).len = s.len - n := List.length_drop

theorem take_len (n : ℕ) (s : CStr) : (s.take n).len = min n s.len := List.length_take

/-- Strings with their terminators. -/
def storedAll (ss : List CStr) : List UInt8 := ss.flatMap stored

@[simp] theorem storedAll_nil : storedAll [] = [] := rfl

theorem storedAll_cons (s : CStr) (ss : List CStr) :
    storedAll (s :: ss) = s.stored ++ storedAll ss := List.flatMap_cons

theorem storedAll_append (as bs : List CStr) :
    storedAll (as ++ bs) = storedAll as ++ storedAll bs := List.flatMap_append

theorem storedAll_singleton (s : CStr) : storedAll [s] = s.stored := List.flatMap_singleton ..

/-- The place of a byte is that of a string. -/
theorem exists_at {ss : List CStr} {k : ℕ} (h : k < (storedAll ss).length) :
    ∃ as s bs, ss = as ++ s :: bs ∧ (storedAll as).length ≤ k ∧
      k ≤ (storedAll as).length + s.len := by
  induction ss generalizing k with
  | nil => exact absurd h (Nat.not_lt_zero k)
  | cons t ss ih =>
    rw [storedAll_cons, List.length_append, stored_length] at h
    rcases Nat.lt_or_ge t.len k with hbehind | hin
    · obtain ⟨as, s, bs, rfl, hle, hge⟩ := ih (k := k - (t.len + 1)) (by omega)
      have hlen : (storedAll (t :: as)).length = t.len + 1 + (storedAll as).length := by
        rw [storedAll_cons, List.length_append, stored_length]
      exact ⟨t :: as, s, bs, rfl, by omega, by omega⟩
    · exact ⟨[], t, ss, rfl, Nat.zero_le k, by rw [storedAll_nil, List.length_nil]; omega⟩

end CStr

/-- A search from within a string. -/
theorem memchr_stored (x : List UInt8) (s : CStr) (y : List UInt8) {k : ℕ} (hle : x.length ≤ k)
    (hge : k ≤ x.length + s.len) : memchr (x ++ s.stored ++ y) k = some (x.length + s.len) := by
  obtain ⟨j, rfl⟩ := Nat.exists_eq_add_of_le hle
  have hj : j ≤ s.val.length := Nat.le_of_add_le_add_left hge
  have hdrop : (x ++ s.stored ++ y).drop (x.length + j) = s.val.drop j ++ 0 :: y := by
    rw [List.append_assoc, ← List.drop_drop, List.drop_left, CStr.stored, List.append_assoc,
      List.drop_append_of_le_length hj]
    rfl
  have hfree : (s.val.drop j).findIdx? (· == 0) = none := by
    rw [List.findIdx?_eq_none_iff]
    intro b hb
    apply beq_eq_false_iff_ne.mpr
    rintro rfl
    exact s.property (List.mem_of_mem_drop hb)
  have hfind : (s.val.drop j ++ 0 :: y).findIdx? (· == 0) = some (s.val.drop j).length := by
    rw [List.findIdx?_append, hfree]
    simp [List.findIdx?_cons]
  rw [memchr, hdrop, hfind, Option.map_some, List.length_drop, CStr.len, Nat.add_assoc,
    Nat.add_sub_cancel' hj]

/-- A copy of a string with its terminator. -/
theorem strncpy_stored (s : CStr) : strncpy [] s.stored (s.len + 1) = s.stored := by
  have htake : s.val.take (s.len + 1) = s.val := List.take_of_length_le (Nat.le_succ _)
  simp only [strncpy]
  rw [CStr.read_stored, htake, List.drop_nil, List.append_nil, CStr.len, Nat.add_sub_cancel_left]
  rfl

/-- A copy of the front of a string. -/
theorem strncpy_front (s : CStr) {n : ℕ} (h : n ≤ s.len) :
    strncpy [] s.stored n = (s.take n).val := by
  have hlen : (s.val.take n).length = n := List.length_take_of_le h
  simp only [strncpy]
  rw [CStr.read_stored, hlen, Nat.sub_self, List.drop_nil, List.append_nil, List.replicate_zero,
    List.append_nil]
  rfl

end EzpFirmware.Lib
