import Mathlib.Data.List.Basic
import Mathlib.Data.List.Nodup
import Mathlib.Data.List.NodupEquivFin
import Mathlib.Logic.Function.Basic

/-! # Lists of assignments

A text of assignments denotes the partial map that is left when they are made
one after the other. An allocator that may refuse some of the requests makes
only the answered ones.
-/
namespace EzpFirmware.Lib

section
variable {K V E : Type*} [DecidableEq K]

/-- The partial map after all assignments; the last one for a key decides. -/
def overwrite (f : K → Option V) (l : List (K × V)) : K → Option V :=
  l.foldl (fun f a => Function.update f a.1 (some a.2)) f

variable {f : K → Option V} {l : List (K × V)} {k : K} {v : V}

@[simp] theorem overwrite_nil : overwrite f [] = f := rfl

@[simp] theorem overwrite_cons (a : K × V) :
    overwrite f (a :: l) = overwrite (Function.update f a.1 (some a.2)) l := rfl

theorem overwrite_append (l m : List (K × V)) :
    overwrite f (l ++ m) = overwrite (overwrite f l) m := List.foldl_append

theorem overwrite_of_not_mem (h : k ∉ l.map Prod.fst) : overwrite f l k = f k := by
  induction l generalizing f with
  | nil => rfl
  | cons a l ih =>
    simp only [List.map_cons, List.mem_cons, not_or] at h
    rw [overwrite_cons, ih h.2, Function.update_of_ne h.1]

/-- Every value is an old one or comes from one of the assignments. -/
theorem overwrite_mem (h : overwrite f l k = some v) : f k = some v ∨ (k, v) ∈ l := by
  induction l generalizing f with
  | nil => exact .inl h
  | cons a l ih =>
    rw [overwrite_cons] at h
    rw [List.mem_cons]
    cases ih h with
    | inr hl => exact .inr (.inr hl)
    | inl hf =>
      by_cases hk : k = a.1
      · subst hk
        rw [Function.update_self] at hf
        cases hf
        exact .inr (.inl rfl)
      · rw [Function.update_of_ne hk] at hf
        exact .inl hf

/-- A key that is assigned gets one of the values assigned to it. -/
theorem overwrite_of_key (h : k ∈ l.map Prod.fst) : ∃ v, overwrite f l k = some v ∧ (k, v) ∈ l := by
  induction l generalizing f with
  | nil => cases h
  | cons a l ih =>
    rw [overwrite_cons]
    by_cases hl : k ∈ l.map Prod.fst
    · obtain ⟨v, hv, hm⟩ := ih (f := Function.update f a.1 (some a.2)) hl
      exact ⟨v, hv, List.mem_cons_of_mem a hm⟩
    · rw [List.map_cons, List.mem_cons] at h
      obtain rfl := h.resolve_right hl
      rw [overwrite_of_not_mem hl, Function.update_self]
      exact ⟨a.2, rfl, List.mem_cons_self⟩

theorem overwrite_of_mem (hl : (l.map Prod.fst).Nodup) (h : (k, v) ∈ l) :
    overwrite f l k = some v := by
  induction l generalizing f with
  | nil => simp at h
  | cons a l ih =>
    rw [List.map_cons, List.nodup_cons] at hl
    rw [overwrite_cons]
    rcases List.mem_cons.mp h with rfl | h
    · rw [overwrite_of_not_mem hl.1, Function.update_self]
    · exact ih hl.2 h

/-- Distinct keys: the map is the list. -/
theorem overwrite_eq_some (hl : (l.map Prod.fst).Nodup) :
    overwrite (fun _ => none) l k = some v ↔ (k, v) ∈ l := by
  refine ⟨fun h => ?_, overwrite_of_mem hl⟩
  cases overwrite_mem h with
  | inl hn => cases hn
  | inr hm => exact hm

/-- The requests that are granted, request `i` being that of the `i`-th element. -/
def answered (grant : ℕ → Bool) : List E → List E
  | [] => []
  | e :: l =>
    if grant 0 then e :: answered (fun i => grant (i + 1)) l
    else answered (fun i => grant (i + 1)) l

theorem answered_sublist (grant : ℕ → Bool) (l : List E) : (answered grant l).Sublist l := by
  induction l generalizing grant with
  | nil => exact List.Sublist.refl _
  | cons e l ih =>
    rw [answered]
    split
    · exact (ih _).cons_cons e
    · exact (ih _).cons e

theorem answered_all {grant : ℕ → Bool} (h : ∀ i, grant i = true) (l : List E) :
    answered grant l = l := by
  induction l generalizing grant with
  | nil => rfl
  | cons e l ih => rw [answered, if_pos (h 0), ih fun i => h (i + 1)]

end

/-! ## Records under a list of names

A record is a list of values, and a list of names says what each of them is. A
named value is replaced by a pass over names and values at once, which ends with
the shorter of the two.
-/

section
variable {ι α : Type*} [DecidableEq ι]

/-- The pass that replaces the values of one name. -/
def substitute (names : List ι) (a : ι) (new : α) (values : List α) : List α :=
  (names.zip values).map fun p => if p.1 = a then new else p.2

variable {names : List ι} {a : ι} {new : α} {values : List α}

theorem substitute_length :
    (substitute names a new values).length = min names.length values.length := by
  rw [substitute, List.length_map, List.length_zip]

theorem substitute_cons (n : ι) (v : α) : substitute (n :: names) a new (v :: values) =
    (if n = a then new else v) :: substitute names a new values := rfl

theorem getElem_substitute {i : ℕ} (hn : i < names.length) (hv : i < values.length)
    (h : i < (substitute names a new values).length) :
    (substitute names a new values)[i] = if names[i] = a then new else values[i] := by
  simp [substitute]

/-- A value of the result is the new one or an old one. -/
theorem mem_substitute {v : α} (h : v ∈ substitute names a new values) : v = new ∨ v ∈ values := by
  obtain ⟨p, hp, rfl⟩ := List.mem_map.mp h
  by_cases hname : p.1 = a
  · exact .inl (if_pos hname)
  · refine .inr ?_
    rw [if_neg hname]
    exact (List.of_mem_zip hp).2

/-- The pass does nothing but replace the value at an index with the name exactly if every value has
a name, and no other value of that name is changed. -/
theorem substitute_eq_set_iff {j : ℕ} (hname : names[j]? = some a) (hj : j < values.length) :
    substitute names a new values = values.set j new ↔
      values.length ≤ names.length ∧
        ∀ i < values.length, i ≠ j → names[i]? = some a → values[i]? = some new := by
  constructor
  · intro h
    have hlen := congrArg List.length h
    rw [substitute_length, List.length_set] at hlen
    have hle : values.length ≤ names.length := by omega
    refine ⟨hle, fun i hi hij ha => ?_⟩
    have hin : i < names.length := by omega
    have hsub : i < (substitute names a new values).length := by
      rw [substitute_length]
      omega
    have hset : i < (values.set j new).length := by rwa [List.length_set]
    have hvalue : (substitute names a new values)[i] = (values.set j new)[i] := by
      simp only [h]
    rw [List.getElem?_eq_getElem hin, Option.some_inj] at ha
    rw [getElem_substitute hin hi, if_pos ha, List.getElem_set_ne (Ne.symm hij)] at hvalue
    rw [List.getElem?_eq_getElem hi, hvalue]
  · rintro ⟨hle, hothers⟩
    apply List.ext_getElem
    · rw [substitute_length, List.length_set]
      omega
    · intro i hsub hset
      have hi : i < values.length := by rwa [List.length_set] at hset
      have hin : i < names.length := by omega
      rw [getElem_substitute hin hi]
      by_cases hij : i = j
      · subst hij
        rw [List.getElem?_eq_getElem hin, Option.some_inj] at hname
        rw [if_pos hname, List.getElem_set_self]
      · rw [List.getElem_set_ne (Ne.symm hij)]
        split_ifs with ha
        · have hold := hothers i hi hij (by rw [List.getElem?_eq_getElem hin, ha])
          rw [List.getElem?_eq_getElem hi, Option.some_inj] at hold
          exact hold.symm
        · rfl

/-- The same for a pass over the first values only. -/
theorem substitute_take_eq_set_iff {j n : ℕ} (hname : names[j]? = some a)
    (hj : j < values.length) :
    substitute names a new (values.take n) = values.set j new ↔
      values.length ≤ n ∧ values.length ≤ names.length ∧
        ∀ i < values.length, i ≠ j → names[i]? = some a → values[i]? = some new := by
  by_cases hn : values.length ≤ n
  · rw [List.take_of_length_le hn, substitute_eq_set_iff hname hj]
    exact (and_iff_right hn).symm
  · apply iff_of_false
    · intro h
      have hlen := congrArg List.length h
      rw [substitute_length, List.length_take, List.length_set] at hlen
      omega
    · exact fun h => hn h.1

end

end EzpFirmware.Lib
