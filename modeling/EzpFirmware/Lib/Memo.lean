import Mathlib.Data.Option.Basic

/-! # A client that remembers what a server holds

The server holds a value or none. The client remembers the digest of the value
that it believes to be there, and asks nothing for a value with that digest. It
is right as long as its memory is coherent with the server.
-/
namespace EzpFirmware.Lib

/-- What the client remembers, and what the server holds. -/
structure Memo (B H : Type*) where
  memory : Option H
  store : Option B

namespace Memo
variable {B H : Type*}

/-- What can happen to the two. -/
inductive Event (B : Type*) where
  | forget
  | drop (taken : Bool)
  | put (body : B) (taken remembered : Bool)

section
variable (digest : B → H)

/-- A digest that is remembered is that of the value held. -/
def Coherent (m : Memo B H) : Prop := ∀ h, m.memory = some h → ∃ b, m.store = some b ∧ digest b = h

/-- One event. -/
def step (m : Memo B H) : Event B → Memo B H
  | .forget => { m with memory := none }
  | .drop taken => ⟨none, if taken then none else m.store⟩
  | .put body taken remembered =>
    ⟨if remembered then some (digest body) else m.memory, if taken then some body else m.store⟩

/-- A value is remembered only if it is held, and held only if it is remembered or nothing is. -/
def Careful (m : Memo B H) : Event B → Prop
  | .put body taken remembered =>
    (remembered = true → taken = true ∨ m.store = some body) ∧
      (remembered = false → taken = true → m.memory = none)
  | _ => True

end

variable {digest : B → H} {m : Memo B H}

theorem coherent_of_memory_none (h : m.memory = none) : Coherent digest m := by
  intro d hd
  rw [h] at hd
  cases hd

/-- Careful events keep the memory coherent. -/
theorem Coherent.step {e : Event B} (hm : Coherent digest m) (he : Careful m e) :
    Coherent digest (step digest m e) := by
  cases e with
  | forget => exact coherent_of_memory_none rfl
  | drop taken => exact coherent_of_memory_none rfl
  | put body taken remembered =>
    intro d hd
    cases remembered with
    | true =>
      refine ⟨body, ?_, Option.some.inj hd⟩
      cases taken with
      | true => rfl
      | false => exact (he.1 rfl).resolve_left (by simp)
    | false =>
      cases taken with
      | true => exact absurd hd (by simp [Memo.step, he.2 rfl rfl])
      | false => exact hm d hd

/-- What a coherent memory finds is held. -/
theorem Coherent.hit (hm : Coherent digest m) {body : B} (h : m.memory = some (digest body))
    (hinj : ∀ b, m.store = some b → digest b = digest body → b = body) :
    m.store = some body := by
  rcases hm _ h with ⟨b, hb, hd⟩
  rw [hb, hinj b hb hd]

end Memo
end EzpFirmware.Lib
