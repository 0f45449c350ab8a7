import Mathlib.Logic.Basic

/-! # Programs over commands

A program is a tree: it is done, or it gives a command and goes on with the
answer. A machine answers commands one by one, changing its state, and may
fault. What a program can do to the state is then known from its commands alone.
-/
namespace EzpFirmware.Lib

/-- A program that gives commands `c : Cmd` and gets answers of type `Ans c`. -/
inductive Program (Cmd : Type) (Ans : Cmd → Type) (α : Type) where
  | done (a : α)
  | call (c : Cmd) (next : Ans c → Program Cmd Ans α)

/-- A machine answers a command in a state, or faults. -/
abbrev Machine (Cmd : Type) (Ans : Cmd → Type) (σ ε : Type) :=
  (c : Cmd) → σ → Except ε (Ans c × σ)

namespace Program
variable {Cmd : Type} {Ans : Cmd → Type} {σ ε α β : Type}

def bind : Program Cmd Ans α → (α → Program Cmd Ans β) → Program Cmd Ans β
  | .done a, f => f a
  | .call c next, f => .call c fun r => (next r).bind f

instance : Monad (Program Cmd Ans) where
  pure := .done
  bind := bind

@[simp] theorem pure_eq (a : α) : (pure a : Program Cmd Ans α) = .done a := rfl

@[simp] theorem call_bind (c : Cmd) (next : Ans c → Program Cmd Ans α)
    (f : α → Program Cmd Ans β) : .call c next >>= f = .call c fun r => next r >>= f := rfl

def run (M : Machine Cmd Ans σ ε) : Program Cmd Ans α → σ → Except ε (α × σ)
  | .done a, s => .ok (a, s)
  | .call c next, s =>
    match M c s with
    | .ok (r, t) => (next r).run M t
    | .error e => .error e

/-- `P` holds at every command of the run, in the state in which it is given. -/
def Along (M : Machine Cmd Ans σ ε) (P : Cmd → σ → Prop) : Program Cmd Ans α → σ → Prop
  | .done _, _ => True
  | .call c next, s => P c s ∧ ∀ r t, M c s = .ok (r, t) → (next r).Along M P t

variable {M : Machine Cmd Ans σ ε} {P : Cmd → σ → Prop} {s : σ}

theorem run_bind (p : Program Cmd Ans α) (f : α → Program Cmd Ans β) (s : σ) :
    (p >>= f).run M s =
      match p.run M s with
      | .ok (a, t) => (f a).run M t
      | .error e => .error e := by
  induction p generalizing s with
  | done a => rfl
  | call c next ih =>
    rw [call_bind, run, run]
    cases hm : M c s with
    | error e => rfl
    | ok x => exact ih x.1 x.2

/-- The run rule: if every command given under `P` is answered, keeps the invariant and relates
the states by a preorder, then so does a run that meets `P` all along. -/
theorem Along.run_ok {I : σ → Prop} {R : σ → σ → Prop} (hrefl : ∀ s, R s s)
    (htrans : ∀ s t u, R s t → R t u → R s u)
    (hstep : ∀ c s, I s → P c s → ∃ r t, M c s = .ok (r, t) ∧ I t ∧ R s t)
    {p : Program Cmd Ans α} (h : p.Along M P s) (hi : I s) :
    ∃ a t, p.run M s = .ok (a, t) ∧ I t ∧ R s t := by
  induction p generalizing s with
  | done a => exact ⟨a, s, rfl, hi, hrefl s⟩
  | call c next ih =>
    obtain ⟨r, t, hc, ht, hst⟩ := hstep c s hi h.1
    obtain ⟨a, u, hrun, hu, htu⟩ := ih r (h.2 r t hc) ht
    refine ⟨a, u, ?_, hu, htrans s t u hst htu⟩
    rw [Program.run, hc]
    exact hrun

end Program

end EzpFirmware.Lib
