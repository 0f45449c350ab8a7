import EzpFirmware.Lib.CString
import EzpFirmware.Lib.Memory
import EzpFirmware.Lib.Chains

/-! # The kernel NVRAM table

Variables live in 257 hash chains of tuples. A tuple owns its name, while its
value is a position in the static arena `nvram_buf`, filled upwards from
`nvram_offset`. Tuples that are unset move to a dead list until the whole table
is freed. The answers of the kernel allocator are arguments of the operations.
-/
namespace EzpFirmware.KernelNvram
open Lib

def NVRAM_SPACE : ℕ := 0x8000

/-- `-ENOMEM`. -/
def ENOMEM : ℤ := -12

structure NvramTuple where
  name : CStr
  /-- Position of the value in `nvram_buf`. -/
  value : ℕ
  deriving DecidableEq

structure Nvram where
  nvramHash : Fin 257 → List NvramTuple
  nvramDead : List NvramTuple
  nvramBuf : List UInt8
  nvramOffset : ℕ

/-- The static state before anything is loaded: no tuples and a zeroed arena. -/
def Nvram.initial : Nvram where
  nvramHash _ := []
  nvramDead := []
  nvramBuf := List.replicate NVRAM_SPACE 0
  nvramOffset := 0

/-- A plain `char` is signed on the MIPS targets, so it is widened with its sign. -/
def charToUint (c : UInt8) : UInt32 :=
  if c < 0x80 then c.toUInt32 else c.toUInt32 + 0xffffff00

/-- String hash. -/
def hash (s : CStr) : UInt32 := s.val.foldl (fun h c => 31 * h + charToUint c) 0

/-- `hash(name) % ARRAYSIZE(nvram_hash)`. -/
def bucket (name : CStr) : Fin 257 := Fin.ofNat 257 (hash name).toNat

namespace Nvram

/-- The loop `t && strcmp(t->name, name)` over the chain of the name. -/
def find (s : Nvram) (name : CStr) : Option NvramTuple :=
  Chains.find NvramTuple.name bucket s.nvramHash name

/-- The string a value pointer refers to. -/
def str (s : Nvram) (p : ℕ) : CStr := CStr.read (s.nvramBuf.drop p)

/-- Live tuples in bucket order. -/
def live (s : Nvram) : List NvramTuple := Chains.entries s.nvramHash

end Nvram

/-- Copy a value to the top of the arena. -/
def pushValue (value : CStr) (s : Nvram) : Nvram :=
  { s with
    nvramBuf := poke s.nvramBuf s.nvramOffset value.stored
    nvramOffset := s.nvramOffset + value.len + 1 }

/-- `_nvram_realloc`; `kmalloc` tells whether a new tuple can be allocated. The space check comes
first, so even an unchanged value needs room for another copy. -/
def _nvramRealloc (kmalloc : Bool) (t : Option NvramTuple) (name value : CStr) (s : Nvram) :
    Option NvramTuple × Nvram :=
  if s.nvramOffset + value.len + 1 > NVRAM_SPACE then (none, s)
  else match t with
    | none => if kmalloc then (some ⟨name, s.nvramOffset⟩, pushValue value s) else (none, s)
    | some t =>
      if s.str t.value = value then (some t, s)
      else (some { t with value := s.nvramOffset }, pushValue value s)

/-- `_nvram_get`. -/
def _nvramGet (name : CStr) (s : Nvram) : Option CStr := (s.find name).map fun t => s.str t.value

/-- `_nvram_set`. `_nvram_realloc` hands an existing tuple back, so the tuple stays in its place
in the chain and the branch that moves it to the dead list is never taken. -/
def _nvramSet (kmalloc : Bool) (name value : CStr) (s : Nvram) : ℤ × Nvram :=
  let t := s.find name
  match _nvramRealloc kmalloc t name value s with
  | (none, s) => (ENOMEM, s)
  | (some u, s) =>
    let i := bucket name
    let chain := match t with
      | some _ => putFirst (fun t => t.name = name) u (s.nvramHash i)
      | none => u :: s.nvramHash i
    (0, { s with nvramHash := Function.update s.nvramHash i chain })

/-- `_nvram_unset`. -/
def _nvramUnset (name : CStr) (s : Nvram) : ℤ × Nvram :=
  match s.find name with
  | none => (0, s)
  | some t =>
    let i := bucket name
    (0, { s with
      nvramHash := Function.update s.nvramHash i
        ((s.nvramHash i).eraseP fun t => t.name = name)
      nvramDead := t :: s.nvramDead })

/-- `nvram_free`: every tuple goes and the arena is filled from its start again. -/
def nvramFree (s : Nvram) : Nvram :=
  { s with nvramHash := fun _ => [], nvramDead := [], nvramOffset := 0 }

/-! ## The table as a partial map -/

/-- What every operation keeps: chains are well formed, and the value of each live tuple is a
stored string below the fill level of the arena, apart from the values of the others. -/
structure Nvram.Valid (s : Nvram) : Prop where
  chained : Chained NvramTuple.name bucket s.nvramHash
  buf_length : s.nvramBuf.length = NVRAM_SPACE
  offset_le : s.nvramOffset ≤ NVRAM_SPACE
  stored : ∀ name t, s.find name = some t →
    Holds s.nvramBuf t.value (s.str t.value).stored ∧
      t.value + (s.str t.value).len + 1 ≤ s.nvramOffset
  disjoint : ∀ n m t u, s.find n = some t → s.find m = some u → n ≠ m →
    t.value + (s.str t.value).len + 1 ≤ u.value ∨ u.value + (s.str u.value).len + 1 ≤ t.value

namespace Nvram

variable {s : Nvram} {kmalloc : Bool} {name value : CStr}

theorem initial_valid : Nvram.initial.Valid where
  chained := Chained.empty
  buf_length := List.length_replicate
  offset_le := Nat.zero_le _
  stored n t h := by simp [initial, find, Chains.find] at h
  disjoint n m t u h := by simp [initial, find, Chains.find] at h

/-- A value below the fill level is not touched by the next copy. -/
theorem Valid.pushValue_str (h : s.Valid) {n : CStr} {t : NvramTuple} (ht : s.find n = some t)
    (value : CStr) : (pushValue value s).str t.value = s.str t.value ∧
      Holds (pushValue value s).nvramBuf t.value (s.str t.value).stored := by
  obtain ⟨hs, he⟩ := h.stored n t ht
  have hk : Holds (pushValue value s).nvramBuf t.value (s.str t.value).stored :=
    hs.poke (by rw [CStr.stored_length]; omega) (h.buf_length ▸ h.offset_le)
  refine ⟨?_, hk⟩
  obtain ⟨rest, hr⟩ := hk
  rw [Nvram.str, ← hr, CStr.read_stored_append]

theorem Valid.pushValue_top (h : s.Valid) (value : CStr) :
    (pushValue value s).str s.nvramOffset = value ∧
      Holds (pushValue value s).nvramBuf s.nvramOffset value.stored := by
  have hk : Holds (pushValue value s).nvramBuf s.nvramOffset value.stored :=
    poke_holds _ (h.buf_length ▸ h.offset_le)
  refine ⟨?_, hk⟩
  obtain ⟨rest, hr⟩ := hk
  rw [Nvram.str, ← hr, CStr.read_stored_append]

/-- Room for one more copy of the value, terminator included. -/
def Room (s : Nvram) (value : CStr) : Prop := s.nvramOffset + value.len + 1 ≤ NVRAM_SPACE

instance (s : Nvram) (value : CStr) : Decidable (s.Room value) :=
  inferInstanceAs (Decidable (_ ≤ _))

theorem find_name {n : CStr} {t : NvramTuple} (h : s.find n = some t) : t.name = n :=
  Chains.find_key h

theorem Valid.mem_live (h : s.Valid) {t : NvramTuple} : t ∈ s.live ↔ s.find t.name = some t :=
  h.chained.mem_iff_find

/-- The common part of every successful write: the arena has taken a copy of the value and the
name, alone among all names, now leads to that copy. -/
theorem Valid.pushed (h : s.Valid) (hr : s.Room value) {tab : Fin 257 → List NvramTuple}
    (hc : Chained NvramTuple.name bucket tab)
    (hf : ∀ m, Chains.find NvramTuple.name bucket tab m =
      if m = name then some ⟨name, s.nvramOffset⟩ else s.find m) :
    ({ pushValue value s with nvramHash := tab } : Nvram).Valid ∧
      ∀ m, _nvramGet m { pushValue value s with nvramHash := tab } =
        if m = name then some value else _nvramGet m s := by
  set s' : Nvram := { pushValue value s with nvramHash := tab } with hs'
  have hfind : ∀ m, s'.find m = if m = name then some ⟨name, s.nvramOffset⟩ else s.find m := hf
  have hnew := h.pushValue_top value
  have hold : ∀ {m t}, s.find m = some t → s'.str t.value = s.str t.value := fun ht =>
    (h.pushValue_str ht value).1
  have hcase : ∀ m t, s'.find m = some t →
      (m = name ∧ t.value = s.nvramOffset ∧ s'.str t.value = value) ∨
      (m ≠ name ∧ s.find m = some t ∧ s'.str t.value = s.str t.value) := by
    intro m t ht
    rw [hfind] at ht
    by_cases hm : m = name
    · rw [if_pos hm] at ht
      cases ht
      exact .inl ⟨hm, rfl, hnew.1⟩
    · rw [if_neg hm] at ht
      exact .inr ⟨hm, ht, hold ht⟩
  refine ⟨⟨hc, ?_, hr, ?_, ?_⟩, ?_⟩
  · exact (poke_length (by
      rw [CStr.stored_length, h.buf_length]
      exact hr)).trans h.buf_length
  · intro m t ht
    have hoff : s'.nvramOffset = s.nvramOffset + value.len + 1 := rfl
    rcases hcase m t ht with ⟨-, hv, hstr⟩ | ⟨-, hm, hstr⟩
    · rw [hstr, hv, hoff]
      exact ⟨hnew.2, le_rfl⟩
    · have hend := (h.stored m t hm).2
      rw [hstr, hoff]
      exact ⟨(h.pushValue_str hm value).2, by omega⟩
  · intro n m t u ht hu hnm
    rcases hcase n t ht with ⟨hn, hv, hstr⟩ | ⟨hn, hn', hstr⟩ <;>
      rcases hcase m u hu with ⟨hm, hw, hstr'⟩ | ⟨hm, hm', hstr'⟩
    · exact absurd (hn.trans hm.symm) hnm
    · right
      rw [hstr', hv]
      exact (h.stored m u hm').2
    · left
      rw [hstr, hw]
      exact (h.stored n t hn').2
    · rw [hstr, hstr']
      exact h.disjoint n m t u hn' hm' hnm
  · intro m
    rw [_nvramGet, hfind]
    by_cases hm : m = name
    · rw [if_pos hm, if_pos hm]
      exact congrArg some hnew.1
    · rw [if_neg hm, if_neg hm, _nvramGet]
      cases ht : s.find m with
      | none => rfl
      | some t => exact congrArg some (hold ht)

/-- The one way a write can be refused: no room for the value or no memory for a new tuple. -/
def Accepts (s : Nvram) (kmalloc : Bool) (name value : CStr) : Prop :=
  s.Room value ∧ (s.find name = none → kmalloc = true)

instance (s : Nvram) (kmalloc : Bool) (name value : CStr) :
    Decidable (s.Accepts kmalloc name value) :=
  inferInstanceAs (Decidable (_ ∧ (_ → _)))

theorem set_refused (h : ¬ s.Accepts kmalloc name value) :
    _nvramSet kmalloc name value s = (ENOMEM, s) := by
  unfold _nvramSet _nvramRealloc
  by_cases hr : s.nvramOffset + value.len + 1 > NVRAM_SPACE
  · simp [hr]
  · have hroom : s.Room value := Nat.le_of_not_gt hr
    obtain ⟨hf, hk⟩ : s.find name = none ∧ kmalloc = false := by
      simpa [Accepts, hroom] using h
    simp [hr, hf, hk]

/-- A write that is accepted: the table stays valid, the name has the value, all others keep
theirs, and the arena grows by the copy unless the same value was there already. -/
theorem Valid.set_accepted (h : s.Valid) (ha : s.Accepts kmalloc name value) :
    (_nvramSet kmalloc name value s).1 = 0 ∧ (_nvramSet kmalloc name value s).2.Valid ∧
      (∀ m, _nvramGet m (_nvramSet kmalloc name value s).2 =
        if m = name then some value else _nvramGet m s) ∧
      (_nvramSet kmalloc name value s).2.nvramOffset =
        if _nvramGet name s = some value then s.nvramOffset
        else s.nvramOffset + value.len + 1 := by
  obtain ⟨hr, hk⟩ := ha
  have hroom : ¬ s.nvramOffset + value.len + 1 > NVRAM_SPACE := Nat.not_lt.mpr hr
  cases ht : s.find name with
  | none =>
    have hg : _nvramGet name s = none := by rw [_nvramGet, ht]; rfl
    have hset : _nvramSet kmalloc name value s = (0, { pushValue value s with
        nvramHash := Function.update s.nvramHash (bucket name)
          (⟨name, s.nvramOffset⟩ :: s.nvramHash (bucket name)) }) := by
      simp [_nvramSet, _nvramRealloc, hroom, ht, hk ht, pushValue]
    obtain ⟨hv, hget⟩ := h.pushed hr
      (h.chained.push (e := ⟨name, s.nvramOffset⟩) ht)
      (Chains.find_push (⟨name, s.nvramOffset⟩ : NvramTuple))
    rw [hset, hg]
    exact ⟨rfl, hv, hget, rfl⟩
  | some t =>
    obtain rfl : t.name = name := find_name ht
    have hg : _nvramGet t.name s = some (s.str t.value) := by rw [_nvramGet, ht]; rfl
    by_cases hsame : s.str t.value = value
    · -- the value is there already: the chain is rebuilt with the very same tuple
      have hset : _nvramSet kmalloc t.name value s = (0, { s with
          nvramHash := Function.update s.nvramHash (bucket t.name)
            (putFirst (fun u => u.name = t.name) t (s.nvramHash (bucket t.name))) }) := by
        simp [_nvramSet, _nvramRealloc, hroom, ht, hsame]
      have hfind : ∀ m, Chains.find NvramTuple.name bucket
          (Function.update s.nvramHash (bucket t.name)
            (putFirst (fun u => u.name = t.name) t (s.nvramHash (bucket t.name)))) m = s.find m := by
        intro m
        rw [Chains.find_put rfl m]
        by_cases hm : m = t.name
        · rw [if_pos hm, hm]
          simp only [Nvram.find] at ht ⊢
          rw [ht]
          rfl
        · rw [if_neg hm]
          rfl
      rw [hset, hg, if_pos (congrArg some hsame)]
      refine ⟨rfl, ⟨h.chained.put rfl, h.buf_length, h.offset_le, ?_, ?_⟩, ?_, rfl⟩
      · exact fun n u hu => h.stored n u ((hfind n).symm.trans hu)
      · exact fun n m u w hu hw => h.disjoint n m u w
          ((hfind n).symm.trans hu) ((hfind m).symm.trans hw)
      · intro m
        have hgm : _nvramGet m { s with
            nvramHash := Function.update s.nvramHash (bucket t.name)
              (putFirst (fun u => u.name = t.name) t (s.nvramHash (bucket t.name))) } =
            _nvramGet m s := congrArg (Option.map fun u : NvramTuple => s.str u.value) (hfind m)
        rw [hgm]
        by_cases hm : m = t.name
        · rw [if_pos hm, hm, hg, hsame]
        · rw [if_neg hm]
    · have hset : _nvramSet kmalloc t.name value s = (0, { pushValue value s with
          nvramHash := Function.update s.nvramHash (bucket t.name)
            (putFirst (fun u => u.name = t.name) ⟨t.name, s.nvramOffset⟩
              (s.nvramHash (bucket t.name))) }) := by
        simp [_nvramSet, _nvramRealloc, hroom, ht, hsame, pushValue]
      have hfind : ∀ m, Chains.find NvramTuple.name bucket
          (Function.update s.nvramHash (bucket t.name)
            (putFirst (fun u => u.name = t.name) ⟨t.name, s.nvramOffset⟩
              (s.nvramHash (bucket t.name)))) m =
          if m = t.name then some ⟨t.name, s.nvramOffset⟩ else s.find m := by
        intro m
        rw [Chains.find_put (u := (⟨t.name, s.nvramOffset⟩ : NvramTuple)) rfl m]
        by_cases hm : m = t.name
        · rw [if_pos hm, if_pos hm]
          simp only [Nvram.find] at ht
          rw [ht]
          rfl
        · rw [if_neg hm, if_neg hm]
          rfl
      obtain ⟨hv, hget⟩ :=
        h.pushed hr (h.chained.put (u := (⟨t.name, s.nvramOffset⟩ : NvramTuple)) rfl) hfind
      rw [hset, hg, if_neg (fun he => hsame (Option.some.inj he))]
      exact ⟨rfl, hv, hget, rfl⟩

theorem Valid.set (h : s.Valid) (kmalloc : Bool) (name value : CStr) :
    (_nvramSet kmalloc name value s).2.Valid := by
  by_cases ha : s.Accepts kmalloc name value
  · exact (h.set_accepted ha).2.1
  · rw [set_refused ha]
    exact h

/-- Unsetting removes the name and nothing else. -/
theorem Valid.unset (h : s.Valid) (name : CStr) :
    (_nvramUnset name s).2.Valid ∧
      ∀ m, _nvramGet m (_nvramUnset name s).2 = if m = name then none else _nvramGet m s := by
  unfold _nvramUnset
  cases ht : s.find name with
  | none =>
    refine ⟨h, fun m => ?_⟩
    by_cases hm : m = name
    · rw [if_pos hm, hm, _nvramGet, ht]
      rfl
    · rw [if_neg hm]
  | some t =>
    have hfind : ∀ m, Chains.find NvramTuple.name bucket
        (Function.update s.nvramHash (bucket name)
          ((s.nvramHash (bucket name)).eraseP fun t => t.name = name)) m =
        if m = name then none else s.find m := Chains.find_erase h.chained name
    have hback : ∀ {n u}, Chains.find NvramTuple.name bucket
        (Function.update s.nvramHash (bucket name)
          ((s.nvramHash (bucket name)).eraseP fun t => t.name = name)) n = some u →
        s.find n = some u := by
      intro n u hu
      rw [hfind] at hu
      by_cases hn : n = name
      · simp [hn] at hu
      · rwa [if_neg hn] at hu
    refine ⟨⟨h.chained.erase name, h.buf_length, h.offset_le, ?_, ?_⟩, ?_⟩
    · exact fun n u hu => h.stored n u (hback hu)
    · exact fun n m u w hu hw => h.disjoint n m u w (hback hu) (hback hw)
    · intro m
      refine (congrArg (Option.map fun u : NvramTuple => s.str u.value) (hfind m)).trans ?_
      split <;> rfl

theorem Valid.free (h : s.Valid) : (nvramFree s).Valid where
  chained := Chained.empty
  buf_length := h.buf_length
  offset_le := Nat.zero_le _
  stored n t ht := by simp [nvramFree, find, Chains.find] at ht
  disjoint n m t u ht := by simp [nvramFree, find, Chains.find] at ht

@[simp] theorem get_free (m : CStr) : _nvramGet m (nvramFree s) = none := by
  simp [_nvramGet, nvramFree, find, Chains.find]

@[simp] theorem free_offset : (nvramFree s).nvramOffset = 0 := rfl

end Nvram

end EzpFirmware.KernelNvram
