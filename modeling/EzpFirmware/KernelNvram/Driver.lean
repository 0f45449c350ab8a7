import EzpFirmware.KernelNvram.Consolidate

/-! # The NVRAM device

A process reads a variable by writing its name over a read buffer, and sets one
by writing `name=value`. A text without a value unsets the variable.
-/
namespace EzpFirmware.KernelNvram
open Lib

/-- The stack buffer of the driver for names and texts. -/
def DEV_TMP : ℕ := 100

/-- What the kernel allocator answers during one write to the device. -/
structure WriteAnswers where
  /-- The copy of a text that does not fit on the stack. -/
  buffer : Bool
  set : SetAnswers

/-- `dev_nvram_read` of a name that fits on the stack: the string at the offset that is handed
out. The empty name asks for all variables, which gives no offset. -/
def devNvramRead (name : CStr) (s : Nvram) : Option CStr :=
  if name = CStr.empty then none else _nvramGet name s

/-- `ret ? : count`. -/
def orCount (count : ℕ) (r : ℤ × Nvram) : ℤ × Nvram := (if r.1 ≠ 0 then r.1 else count, r.2)

/-- `dev_nvram_write`. -/
def devNvramWrite (kmalloc : WriteAnswers) (buf : CStr) (s : Nvram) : ℤ × Nvram :=
  let count := buf.len + 1
  if count > DEV_TMP ∧ kmalloc.buffer = false then (ENOMEM, s)
  else
    match CStr.cut EQ buf with
    | some (name, value) =>
      if value ≠ CStr.empty then orCount count (nvramSet kmalloc.set name value s)
      else orCount count (nvramUnset name s)
    | none => orCount count (nvramUnset buf s)

/-- A write of an assignment to a name without separator. -/
theorem devNvramWrite_assignment {kmalloc : WriteAnswers} (hbuf : kmalloc.buffer = true)
    {name value : CStr} (hname : EQ ∉ name.val) (hvalue : value ≠ CStr.empty) (s : Nvram) :
    (devNvramWrite kmalloc (assignment (name, value)) s).2 =
      (nvramSet kmalloc.set name value s).2 := by
  unfold devNvramWrite
  dsimp only
  rw [cut_assignment, reread_eq hname, if_neg (by simp [hbuf])]
  dsimp only
  rw [if_pos hvalue, orCount]

/-- A set of `name` leaves the other variables of interest alone: it is accepted at once, there is
no memory to consolidate, or the consolidation keeps them and no name carries the separator. -/
def Spares (guard : CStr → Prop) (kmalloc : SetAnswers) (name value : CStr) (s : Nvram) : Prop :=
  s.Accepts kmalloc.first name value ∨ kmalloc.header = false ∨
    (s.Named ∧ ∀ m v, guard m → m ≠ name → _nvramGet m s = some v →
      (m, v) ∈ kept kmalloc.rebuild s)

namespace Nvram
variable {s : Nvram}

theorem Valid.write (h : s.Valid) (kmalloc : WriteAnswers) (buf : CStr) :
    (devNvramWrite kmalloc buf s).2.Valid := by
  unfold devNvramWrite orCount
  dsimp only
  split
  · exact h
  · cases CStr.cut EQ buf with
    | none => exact (h.unset buf).1
    | some a =>
      dsimp only
      split
      · exact h.nvramSet kmalloc.set a.1 a.2
      · exact (h.unset a.1).1

theorem Valid.unset_get (h : s.Valid) {name m : CStr} (hm : m ≠ name) :
    _nvramGet m (nvramUnset name s).2 = _nvramGet m s := by
  have hu := (h.unset name).2 m
  rw [if_neg hm] at hu
  exact hu

/-- A set that spares a variable does not change it. -/
theorem Valid.spares_get (h : s.Valid) {guard : CStr → Prop} {kmalloc : SetAnswers}
    {name value m : CStr} (hs : Spares guard kmalloc name value s) (hg : guard m)
    (hm : m ≠ name) : _nvramGet m (KernelNvram.nvramSet kmalloc name value s).2 = _nvramGet m s := by
  by_cases ha : s.Accepts kmalloc.first name value
  · rw [nvramSet_fast h ha, (h.set_accepted ha).2.2.1, if_neg hm]
  · cases hh : kmalloc.header with
    | false => rw [nvramSet_no_header ha hh]
    | true =>
      obtain hx | hx | ⟨hn, hk⟩ := hs
      · exact absurd hx ha
      · rw [hh] at hx
        cases hx
      · rw [nvramSet_slow ha hh, (h.consolidated kmalloc.rebuild).set_get,
          if_neg fun hx => hm hx.1]
        ext v
        rw [(h.consolidated_get hn kmalloc.rebuild).1]
        exact ⟨h.kept_get, hk m v hg hm⟩

/-- What a write of an assignment leaves of a spared variable. -/
theorem Valid.write_get (h : s.Valid) {guard : CStr → Prop} {kmalloc : WriteAnswers}
    {name value m : CStr} (hname : EQ ∉ name.val)
    (hs : value ≠ CStr.empty → Spares guard kmalloc.set name value s) (hg : guard m)
    (hm : m ≠ name) :
    _nvramGet m (devNvramWrite kmalloc (assignment (name, value)) s).2 = _nvramGet m s := by
  have hcut : CStr.cut EQ (assignment (name, value)) = some (name, value) := by
    rw [cut_assignment, reread_eq hname]
  unfold devNvramWrite orCount
  rw [hcut]
  dsimp only
  split
  · rfl
  · split
    · next hv => exact h.spares_get (hs hv) hg hm
    · exact h.unset_get hm

/-- What a write of a bare name leaves of the other variables. -/
theorem Valid.write_name_get (h : s.Valid) {kmalloc : WriteAnswers} {name m : CStr}
    (hname : EQ ∉ name.val) (hm : m ≠ name) :
    _nvramGet m (devNvramWrite kmalloc name s).2 = _nvramGet m s := by
  unfold devNvramWrite orCount
  rw [CStr.cut_eq_none.mpr hname]
  dsimp only
  split
  · rfl
  · exact h.unset_get hm

end Nvram

end EzpFirmware.KernelNvram
