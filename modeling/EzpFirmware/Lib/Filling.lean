import EzpFirmware.Lib.CString

/-! # Buffers that are filled from the front

An output of fixed room is written one element after the other. There is no
state behind a write that has no room, so that a loop that ends in a state has
stayed inside its output.
-/
namespace EzpFirmware.Lib

/-- An output of fixed room, and what is written to it. -/
structure Filling (α : Type*) where
  room : ℕ
  out : List α

namespace Filling

variable {α : Type*}

/-- Nothing is written yet. -/
def start (room : ℕ) : Filling α := ⟨room, []⟩

/-- Write the next element. -/
def push (f : Filling α) (a : α) : Option (Filling α) :=
  if f.out.length < f.room then some ⟨f.room, f.out ++ [a]⟩ else none

/-- Write the next elements one after the other. -/
def pushAll : List α → Filling α → Option (Filling α)
  | [], f => some f
  | a :: as, f => (f.push a).bind (pushAll as)

@[simp] theorem pushAll_nil (f : Filling α) : pushAll [] f = some f := rfl

/-- Elements that have room are written. -/
theorem pushAll_eq {as : List α} {f : Filling α} (h : f.out.length + as.length ≤ f.room) :
    pushAll as f = some ⟨f.room, f.out ++ as⟩ := by
  induction as generalizing f with
  | nil => simp
  | cons a as ih =>
    rw [List.length_cons] at h
    have hroom : f.out.length < f.room := by omega
    rw [pushAll, push, if_pos hroom, Option.bind_some, ih (by simp; omega)]
    simp

theorem push_eq {f : Filling α} (h : f.out.length < f.room) (a : α) :
    f.push a = some ⟨f.room, f.out ++ [a]⟩ := if_pos h

end Filling

end EzpFirmware.Lib
