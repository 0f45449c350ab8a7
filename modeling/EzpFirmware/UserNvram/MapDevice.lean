import EzpFirmware.KernelNvram.Driver
import EzpFirmware.UserNvram.Api

/-! # A device that is a plain map

Where the space of the kernel table does not matter, a program runs on a map
from names to values. As long as the table accepts the values at once, it
behaves like that map.
-/
namespace EzpFirmware.UserNvram
open Lib KernelNvram

/-- The variables, as a map. -/
abbrev Variables := CStr → Option CStr

/-- A write of an empty value unsets. -/
def writeMap (buf : CStr) (M : Variables) : Variables :=
  match CStr.cut EQ buf with
  | some (name, value) => Function.update M name (if value = CStr.empty then none else some value)
  | none => Function.update M buf none

/-- A device that can be opened and takes every write. -/
def mapSystem : System Variables where
  openDev _ := 0
  malloc _ := true
  stack := CStr.empty
  read name M := if name = CStr.empty then none else M name
  write _ buf M := (buf.len + 1, writeMap buf M)

/-- The kernel table does to its variables what the map does, for values it accepts at once. -/
theorem devNvramWrite_map {s : Nvram} (h : s.Valid) {kmalloc : WriteAnswers}
    (hbuf : kmalloc.buffer = true) {buf : CStr}
    (ha : ∀ name value, CStr.cut EQ buf = some (name, value) → value ≠ CStr.empty →
      s.Accepts kmalloc.set.first name value) :
    (fun m => _nvramGet m (devNvramWrite kmalloc buf s).2) =
      writeMap buf fun m => _nvramGet m s := by
  have hunset (name : CStr) : (fun m => _nvramGet m (nvramUnset name s).2) =
      Function.update (fun m => _nvramGet m s) name none := by
    funext m
    rw [nvramUnset, (h.unset name).2, Function.update_apply]
  unfold devNvramWrite writeMap
  dsimp only
  rw [if_neg (by simp [hbuf])]
  cases hcut : CStr.cut EQ buf with
  | none => exact hunset buf
  | some a =>
    dsimp only
    by_cases hv : a.2 = CStr.empty
    · rw [if_neg (not_not_intro hv), if_pos hv]
      exact hunset a.1
    · have hacc := ha a.1 a.2 hcut hv
      rw [if_pos hv, if_neg hv, orCount, Nvram.nvramSet_fast h hacc]
      funext m
      rw [(h.set_accepted hacc).2.2.1, Function.update_apply]

/-- What `nvram_safe_get` gives. -/
def text (M : Variables) (name : CStr) : CStr := (M name).getD CStr.empty

section
variable {table : NvramDefault} {p : Process Variables}

/-- A read through an open device. -/
theorem nvramGet_map {name : CStr} (hfd : p.nvramFd = true) (hshort : name.len < 100)
    (hne : name ≠ CStr.empty) : nvramGet mapSystem name p = .ok (p.dev name, p) := by
  have hi : nvramInit mapSystem p = (0, p) := by simp [nvramInit, hfd]
  rw [nvramGet_short hshort, hi, if_pos rfl]
  dsimp only [mapSystem]
  rw [if_neg hne]

/-- A set of an unprotected variable through an open device. -/
theorem nvramSet_map {name : CStr} (value : CStr) (hfd : p.nvramFd = true)
    (hd : Defined table name)
    (hprot : hasOption (nvramGetOption table name) NVRAM_PROTECTED = false) :
    ∃ r, nvramSet table mapSystem name (some value) p = .ok r ∧ r.2.nvramFd = true ∧
      r.2.dev = Function.update p.dev name (if value = CStr.empty then none else some value) := by
  have hname : EQ ∉ name.val := by
    obtain ⟨v, hv, hn⟩ := hd
    exact hn ▸ table.name_plain v hv
  have hgrant := _nvramSet_granted (S := mapSystem) hfd (fun _ => rfl) name (some value)
  refine ⟨_, nvramSet_unprotected hd hprot (some value) p, ?_, ?_⟩
  · rw [hgrant]
    exact hfd
  · rw [hgrant]
    dsimp only [mapSystem, writeMap, writeText]
    rw [cut_assignment, reread_eq hname]

/-- Such a set answers 0. -/
theorem nvramSet_map_answer {name : CStr} (value : Option CStr) (hfd : p.nvramFd = true)
    (hd : Defined table name)
    (hprot : hasOption (nvramGetOption table name) NVRAM_PROTECTED = false) :
    nvramSet table mapSystem name value p = .ok (0, (_nvramSet mapSystem name value p).2) := by
  have hi : nvramInit mapSystem p = (0, p) := by simp [nvramInit, hfd]
  rw [nvramSet_unprotected hd hprot]
  congr 1
  apply Prod.ext
  · unfold _nvramSet
    rw [hi]
    simp only [ne_eq, not_true_eq_false, if_false]
    simp [mapSystem]
  · rfl

end

/-! ## Programs on a map

Code that only names variables it may set can be run on the map itself.
-/

/-- The value a set leaves. -/
def kept (value : Option CStr) : Option CStr :=
  value.bind fun v => if v = CStr.empty then none else some v

/-- A program on a map alone. -/
def onMap {α : Type} : Api α → Variables → α × Variables
  | .done a, M => (a, M)
  | .call (.get name) next, M => onMap (next (M name)) M
  | .call (.set name value) next, M => onMap (next (0 : ℤ)) (Function.update M name (kept value))

/-- The program sets no variable outside `P`. -/
def Confined {α : Type} (P : CStr → Prop) : Api α → Prop
  | .done _ => True
  | .call (.get _) next => ∀ r, Confined P (next r)
  | .call (.set name _) next => P name ∧ ∀ r, Confined P (next r)

/-- A value that is set is read back. -/
@[simp] theorem text_update_kept (M : Variables) (name value : CStr) :
    text (Function.update M name (kept (some value))) name = value := by
  by_cases hv : value = CStr.empty <;> simp [text, kept, hv]

theorem text_congr {M M' : Variables} {name : CStr} (h : M' name = M name) :
    text M' name = text M name := by
  rw [text, text, h]

section
variable {M : Variables}

@[simp] theorem onMap_get (name : CStr) : onMap (Api.get name) M = (M name, M) := rfl

@[simp] theorem onMap_set (name : CStr) (value : Option CStr) :
    onMap (Api.set name value) M = (0, Function.update M name (kept value)) := rfl

@[simp] theorem onMap_safeGet (name : CStr) : onMap (nvramSafeGet name) M = (text M name, M) := rfl

@[simp] theorem onMap_done {α : Type} (a : α) : onMap (.done a) M = (a, M) := rfl

end

section
variable {α β : Type} {P : CStr → Prop}

theorem onMap_bind (p : Api α) (f : α → Api β) (M : Variables) :
    onMap (p >>= f) M = onMap (f (onMap p M).1) (onMap p M).2 := by
  induction p generalizing M with
  | done a => rfl
  | call c next ih =>
    cases c with
    | get name => exact ih (M name) M
    | set name value => exact ih (0 : ℤ) (Function.update M name (kept value))

theorem Confined.bind {p : Api α} {f : α → Api β} (hp : Confined P p)
    (hf : ∀ a, Confined P (f a)) : Confined P (p >>= f) := by
  induction p with
  | done a => exact hf a
  | call c next ih =>
    cases c with
    | get name => exact fun r => ih r (hp r)
    | set name value => exact ⟨hp.1, fun r => ih r (hp.2 r)⟩

theorem confined_get (name : CStr) : Confined P (Api.get name) := fun _ => trivial

theorem confined_safeGet (name : CStr) : Confined P (nvramSafeGet name) :=
  (confined_get name).bind fun _ => trivial

/-- A variable that a program does not set keeps its value. -/
theorem Confined.onMap {p : Api α} (h : Confined P p) {m : CStr} (hm : ¬ P m) (M : Variables) :
    (onMap p M).2 m = M m := by
  induction p generalizing M with
  | done a => rfl
  | call c next ih =>
    cases c with
    | get name => exact ih (M name) (h (M name)) M
    | set name value =>
      have hne : m ≠ name := fun he => hm (he ▸ h.1)
      calc (UserNvram.onMap (next (0 : ℤ)) (Function.update M name (kept value))).2 m
          = Function.update M name (kept value) m := ih (0 : ℤ) (h.2 0) _
        _ = M m := Function.update_of_ne hne _ _

/-- What a program may ask of the library: variables of the table that are not protected. -/
def Open (table : NvramDefault) : NvramCall → Prop
  | .get name => name.len < 100 ∧ name ≠ CStr.empty
  | .set name _ =>
    Defined table name ∧ hasOption (nvramGetOption table name) NVRAM_PROTECTED = false

/-- The library on a device that is a map does what the program does on the map. -/
theorem run_onMap {table : NvramDefault} {p : Api α} {q : Process Variables}
    (hfd : q.nvramFd = true)
    (h : p.Along (library table mapSystem) (fun c _ => Open table c) q) :
    ∃ t, p.run (library table mapSystem) q = .ok ((onMap p q.dev).1, t) ∧ t.nvramFd = true ∧
      t.dev = (onMap p q.dev).2 := by
  induction p generalizing q with
  | done a => exact ⟨q, rfl, hfd, rfl⟩
  | call c next ih =>
    cases c with
    | get name =>
      have hget := nvramGet_map hfd h.1.1 h.1.2
      obtain ⟨t, hrun, ht⟩ := ih (q.dev name) hfd (h.2 _ q hget)
      refine ⟨t, ?_, ht⟩
      rw [Program.run, library, hget]
      exact hrun
    | set name value =>
      have hset := nvramSet_map_answer value hfd h.1.1 h.1.2
      have hgrant := _nvramSet_granted (S := mapSystem) hfd (fun _ => rfl) name value
      generalize hs : (_nvramSet mapSystem name value q).2 = s at hset hgrant
      have hsfd : s.nvramFd = true := by rw [hgrant]; exact hfd
      obtain ⟨t, hrun, ht, hdev⟩ := ih (0 : ℤ) hsfd (h.2 _ s hset)
      have hname : EQ ∉ name.val := by
        obtain ⟨v, hv, hn⟩ := h.1.1
        exact hn ▸ table.name_plain v hv
      have hsdev : s.dev = Function.update q.dev name (kept value) := by
        rw [hgrant]
        cases value with
        | none =>
          have hcut : CStr.cut EQ name = none := CStr.cut_eq_none.mpr hname
          simp only [mapSystem, writeMap, writeText, hcut]
          rfl
        | some v =>
          dsimp only [mapSystem, writeMap, writeText]
          rw [cut_assignment, reread_eq hname]
          rfl
      refine ⟨t, ?_, ht, ?_⟩
      · rw [Program.run, library, hset, onMap, ← hsdev]
        exact hrun
      · rw [hdev, hsdev, onMap]

end

end EzpFirmware.UserNvram
