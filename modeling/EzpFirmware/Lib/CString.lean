import Mathlib.Data.List.TakeWhile
import Mathlib.Data.List.Infix

/-! # NUL-terminated byte strings

A C string is the finite run of non-zero bytes in front of its terminator. The
memory a string is read from is an ordinary byte list, so that reading, copying
and scanning consecutive strings are list functions with exact length facts.
-/
namespace EzpFirmware.Lib

/-- The bytes of a C string, without the terminating NUL. -/
abbrev CStr := {s : List UInt8 // (0 : UInt8) ∉ s}

instance : LawfulBEq CStr := inferInstance

namespace CStr

def len (s : CStr) : ℕ := s.val.length

/-- What `strcpy` writes: the bytes and the terminator. -/
def stored (s : CStr) : List UInt8 := s.val ++ [0]

@[simp] theorem stored_length (s : CStr) : s.stored.length = s.len + 1 := by
  simp [stored, len]

def empty : CStr := ⟨[], by simp⟩

@[simp] theorem empty_len : empty.len = 0 := rfl

/-- The string that starts at the head of a memory region. -/
def read (mem : List UInt8) : CStr :=
  ⟨mem.takeWhile (· != 0), fun h => by simpa using List.mem_takeWhile_imp h⟩

theorem read_of_free {mem : List UInt8} (h : (0 : UInt8) ∉ mem) : read mem = ⟨mem, h⟩ := by
  apply Subtype.ext
  apply List.takeWhile_eq_self_iff.mpr
  intro b hb
  simpa using fun hz : b = 0 => h (hz ▸ hb)

theorem read_val (s : CStr) : read s.val = s := read_of_free s.property

theorem read_len_le (mem : List UInt8) : (read mem).len ≤ mem.length :=
  (List.takeWhile_sublist _).length_le

theorem read_append_of_mem {m r : List UInt8} (h : (0 : UInt8) ∈ m) : read (m ++ r) = read m := by
  apply Subtype.ext
  induction m with
  | nil => cases h
  | cons b m ih =>
    by_cases hb : b = 0
    · simp [read, hb]
    · have hm : (0 : UInt8) ∈ m := (List.mem_cons.mp h).resolve_left fun he => hb he.symm
      simpa [read, hb] using ih hm

theorem read_drop {k : ℕ} {m : List UInt8} (h : k ≤ (read m).len) :
    (read (m.drop k)).val = (read m).val.drop k := by
  induction k generalizing m with
  | zero => rfl
  | succ k ih =>
    cases m with
    | nil => rfl
    | cons b m =>
      have hb : b ≠ 0 := by
        intro hb
        simp [read, len, hb] at h
      have hk : k ≤ (read m).len := by simpa [read, len, hb] using h
      simpa [read, hb] using ih hk

theorem read_len_lt {m : List UInt8} (h : (0 : UInt8) ∈ m) : (read m).len < m.length := by
  induction m with
  | nil => cases h
  | cons b m ih =>
    by_cases hb : b = 0
    · simp [read, len, hb]
    · have hm : (0 : UInt8) ∈ m := (List.mem_cons.mp h).resolve_left fun he => hb he.symm
      simpa [read, len, hb] using ih hm

/-- The bytes of an ASCII text. -/
def ofString (s : String) : CStr := read (s.toList.map fun c => UInt8.ofNat c.toNat)

theorem read_stored_append (s : CStr) (rest : List UInt8) : read (s.stored ++ rest) = s := by
  apply Subtype.ext
  have hs : ∀ b ∈ s.val, (b != 0) = true := fun b hb => by
    simpa using fun h : b = 0 => s.property (h ▸ hb)
  simp only [read, stored, List.append_assoc]
  rw [List.takeWhile_append_of_pos hs]
  simp

@[simp] theorem read_stored (s : CStr) : read s.stored = s := by
  rw [← List.append_nil s.stored, read_stored_append]

/-- A region with a terminator behind it starts with the string that is read there. -/
theorem exists_stored_append (m r : List UInt8) :
    ∃ rest, m ++ 0 :: r = (read m).stored ++ rest := by
  induction m with
  | nil => exact ⟨r, rfl⟩
  | cons b m ih =>
    by_cases hb : b = 0
    · exact ⟨m ++ 0 :: r, by simp [read, stored, hb]⟩
    · obtain ⟨rest, hrest⟩ := ih
      refine ⟨rest, ?_⟩
      have hread : (read (b :: m)).stored = b :: (read m).stored := by
        simp [read, stored, hb]
      rw [hread, List.cons_append, List.cons_append, hrest]

/-- `strchr` followed by cutting the string there: the text before and after the first `c`. -/
def cut (c : UInt8) (s : CStr) : Option (CStr × CStr) :=
  if c ∈ s.val then
    some (⟨s.val.takeWhile (· != c), fun h => s.property (List.takeWhile_subset _ h)⟩,
      ⟨(s.val.dropWhile (· != c)).tail,
        fun h => s.property (List.dropWhile_subset _ (List.mem_of_mem_tail h))⟩)
  else none

theorem cut_eq_none {c : UInt8} {s : CStr} : cut c s = none ↔ c ∉ s.val := by
  simp [cut]

/-- The text in front of the cut never contains the separator. -/
theorem cut_left_not_mem {c : UInt8} {s a b : CStr} (h : cut c s = some (a, b)) :
    c ∉ a.val := by
  unfold cut at h
  split at h
  · cases h
    exact fun hc => by simpa using List.mem_takeWhile_imp hc
  · simp at h

/-- `a`, a separator and `b`, as one string. -/
def glue (c : UInt8) (hc : c ≠ 0) (a b : CStr) : CStr :=
  ⟨a.val ++ c :: b.val, by simp [a.property, b.property, Ne.symm hc]⟩

theorem glue_len (c : UInt8) (hc : c ≠ 0) (a b : CStr) :
    (glue c hc a b).len = a.len + 1 + b.len := by
  simp only [len, glue, List.length_append, List.length_cons]
  omega

theorem cut_glue {c : UInt8} (hc : c ≠ 0) {a : CStr} (ha : c ∉ a.val) (b : CStr) :
    cut c (glue c hc a b) = some (a, b) := by
  have hp : ∀ x ∈ a.val, (x != c) = true := fun x hx => by
    simpa using fun h : x = c => ha (h ▸ hx)
  have hm : c ∈ (glue c hc a b).val := by simp [glue]
  rw [cut, if_pos hm]
  simp [glue, List.takeWhile_append_of_pos hp, List.dropWhile_append_of_pos hp]

/-- A cut splits the string it was made from. -/
theorem cut_length {c : UInt8} {s a b : CStr} (h : cut c s = some (a, b)) :
    s.len = a.len + 1 + b.len := by
  unfold cut at h
  split at h
  case isTrue hc =>
    cases h
    have hs := congrArg List.length (List.takeWhile_append_dropWhile (p := (· != c)) (l := s.val))
    have hd : (s.val.dropWhile (· != c)) ≠ [] := by
      intro he
      rw [List.dropWhile_eq_nil_iff] at he
      simpa using he c hc
    have hl := List.length_pos_iff.mpr hd
    simp only [List.length_append] at hs
    simp only [len, List.length_tail]
    omega
  case isFalse => simp at h

/-- Concatenation. -/
def append (a b : CStr) : CStr :=
  ⟨a.val ++ b.val, fun h => (List.mem_append.mp h).elim a.property b.property⟩

@[simp] theorem append_len (a b : CStr) : (append a b).len = a.len + b.len :=
  List.length_append

/-- The first `n` bytes. -/
def take (n : ℕ) (s : CStr) : CStr := ⟨s.val.take n, fun h => s.property (List.mem_of_mem_take h)⟩

/-- The string without a last `c`. -/
def chop (c : UInt8) (s : CStr) : CStr := if s.val.getLast? = some c then s.take (s.len - 1) else s

theorem chop_len_le (c : UInt8) (s : CStr) : (chop c s).len ≤ s.len := by
  unfold chop
  split
  · exact List.length_take_le' _ _
  · exact le_rfl

/-- The pieces that repeated calls of `strsep` with the separator `c` give. -/
def fieldsOf (c : UInt8) : (l : List UInt8) → (0 : UInt8) ∉ l → List CStr
  | [], _ => [empty]
  | b :: bs, h =>
    let rest := fieldsOf c bs fun hm => h (List.mem_cons_of_mem b hm)
    if b = c then empty :: rest
    else match rest with
      | [] => []
      | f :: fs => ⟨b :: f.val, fun hm => (List.mem_cons.mp hm).elim
          (fun hb => h (hb ▸ List.mem_cons_self)) f.property⟩ :: fs

def fields (c : UInt8) (s : CStr) : List CStr := fieldsOf c s.val s.property

end CStr

/-- The memory at `dst` after `strncpy`: at most `n` bytes of the string, and zeros up to `n`. -/
def strncpy (dst src : List UInt8) (n : ℕ) : List UInt8 :=
  let s := (CStr.read src).val.take n
  s ++ List.replicate (n - s.length) 0 ++ dst.drop n

theorem strncpy_length {dst src : List UInt8} {n : ℕ} (h : n ≤ dst.length) :
    (strncpy dst src n).length = dst.length := by
  simp only [strncpy, List.length_append, List.length_replicate, List.length_take, List.length_drop]
  omega

theorem strncpy_append {dst src r : List UInt8} {n : ℕ} (hdst : n ≤ dst.length)
    (hsrc : (0 : UInt8) ∈ src) : strncpy (dst ++ r) (src ++ r) n = strncpy dst src n ++ r := by
  simp only [strncpy, CStr.read_append_of_mem hsrc, List.drop_append_of_le_length hdst,
    List.append_assoc]

/-- A copy with room for the terminator is read back. -/
theorem read_strncpy {dst src : List UInt8} {n : ℕ} (h : (CStr.read src).len < n) :
    CStr.read (strncpy dst src n) = CStr.read src := by
  have ht : (CStr.read src).val.take n = (CStr.read src).val := List.take_of_length_le h.le
  obtain ⟨k, hk⟩ : ∃ k, n - (CStr.read src).val.length = k + 1 :=
    Nat.exists_eq_succ_of_ne_zero (Nat.sub_ne_zero_of_lt h)
  rw [strncpy, ht, hk, List.replicate_succ]
  simpa [CStr.stored] using
    CStr.read_stored_append (CStr.read src) (List.replicate k 0 ++ dst.drop n)

/-- The consecutive NUL-terminated strings of a memory region; bytes behind the last NUL are no
string. -/
def cstrings : List UInt8 → List CStr
  | [] => []
  | b :: bs =>
    if hb : b = 0 then CStr.empty :: cstrings bs
    else match cstrings bs with
      | [] => []
      | s :: ss => ⟨b :: s.val, by simp [s.property, Ne.symm hb]⟩ :: ss

theorem cstrings_stored_append (s : CStr) (rest : List UInt8) :
    cstrings (s.stored ++ rest) = s :: cstrings rest := by
  obtain ⟨l, hl⟩ := s
  induction l with
  | nil => rfl
  | cons b bs ih =>
    have hb : b ≠ 0 := fun h => hl (by simp [h])
    have hbs : (0 : UInt8) ∉ bs := fun h => hl (List.mem_cons_of_mem b h)
    have htail := ih hbs
    simp only [CStr.stored, List.cons_append] at htail ⊢
    rw [cstrings, dif_neg hb, htail]

/-- Concatenated copies are read back one by one. -/
theorem cstrings_flatMap_stored (ss : List CStr) (rest : List UInt8) :
    cstrings (ss.flatMap CStr.stored ++ rest) = ss ++ cstrings rest := by
  induction ss with
  | nil => rfl
  | cons s ss ih =>
    rw [List.flatMap_cons, List.append_assoc, cstrings_stored_append, ih, List.cons_append]

end EzpFirmware.Lib
