import Mathlib.Algebra.Order.Group.Int
import Mathlib.Data.List.Basic
import Mathlib.Tactic.Abel

/-!
# Delta queues

A queue of timed events in which each event carries the time between its
predecessor's expiry and its own. What the queue means is the list of absolute
expiries; insertion by differences is ordered insertion there, and removal keeps
the others where they are exactly when the difference is handed on.
-/
namespace EzpFirmware.Lib.DeltaQueue

variable {ι T : Type*} [AddCommGroup T]

/-- The absolute expiries of a queue whose first difference counts from `base`. -/
def schedule (base : T) : List (ι × T) → List (ι × T)
  | [] => []
  | (e, d) :: l => (e, base + d) :: schedule (base + d) l

@[simp] theorem schedule_nil (base : T) : schedule base ([] : List (ι × T)) = [] := rfl

@[simp] theorem schedule_cons (base : T) (e : ι) (d : T) (l : List (ι × T)) :
    schedule base ((e, d) :: l) = (e, base + d) :: schedule (base + d) l := rfl

@[simp] theorem schedule_fst (base : T) (l : List (ι × T)) :
    (schedule base l).map Prod.fst = l.map Prod.fst := by
  induction l generalizing base with
  | nil => rfl
  | cons p l ih => simp [schedule, ih]

/-- Where a queue stands after a list of events. -/
def total (l : List (ι × T)) : T := (l.map Prod.snd).sum

theorem schedule_append (base : T) (a b : List (ι × T)) :
    schedule base (a ++ b) = schedule base a ++ schedule (base + total a) b := by
  induction a generalizing base with
  | nil => simp [total]
  | cons p a ih => simp [schedule, ih, total, add_assoc]

/-- Starting later moves every expiry by the same amount. -/
theorem schedule_add (base δ : T) (l : List (ι × T)) :
    schedule (base + δ) l = (schedule base l).map fun p => (p.1, p.2 + δ) := by
  induction l generalizing base with
  | nil => rfl
  | cons p l ih =>
    rw [schedule, schedule, List.map_cons, ← ih, add_right_comm]

/-- A queue that starts elsewhere is moved as a whole. -/
theorem mem_schedule_moved {base : T} (base' : T) {l : List (ι × T)} {u : ι} {x : T}
    (h : (u, x) ∈ schedule base l) : (u, x + (base' - base)) ∈ schedule base' l := by
  have hb : base' = base + (base' - base) := by abel
  rw [hb, schedule_add]
  refine List.mem_map.mpr ⟨(u, x), h, ?_⟩
  simp

section order

variable [LinearOrder T]

/-- Insert by differences: in front of the first event that is due later, whose own
difference shrinks. -/
def insert (t : ι) : T → List (ι × T) → List (ι × T)
  | v, [] => [(t, v)]
  | v, (e, d) :: l => if v < d then (t, v) :: (e, d - v) :: l else (e, d) :: insert t (v - d) l

/-- Insert an expiry in front of the first later one. -/
def place (t : ι) (x : T) : List (ι × T) → List (ι × T)
  | [] => [(t, x)]
  | p :: l => if x < p.2 then (t, x) :: p :: l else p :: place t x l

omit [AddCommGroup T] in
theorem mem_place {t u : ι} {x y : T} {l : List (ι × T)} :
    (u, y) ∈ place t x l ↔ (u = t ∧ y = x) ∨ (u, y) ∈ l := by
  induction l with
  | nil => simp [place]
  | cons p l ih =>
    rw [place]
    split
    · simp
    · simp [ih, or_left_comm]

/-- Inserting by differences inserts the absolute expiry and moves no other. -/
theorem schedule_insert [IsOrderedAddMonoid T] (t : ι) (base v : T) (l : List (ι × T)) :
    schedule base (insert t v l) = place t (base + v) (schedule base l) := by
  induction l generalizing base v with
  | nil => rfl
  | cons p l ih =>
    obtain ⟨e, d⟩ := p
    by_cases hv : v < d
    · simp [insert, place, hv]
    · have hx : base + d + (v - d) = base + v := by abel
      simp [insert, place, hv, ih, hx]

end order

end EzpFirmware.Lib.DeltaQueue
