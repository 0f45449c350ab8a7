import Mathlib.Data.List.Nodup
import Mathlib.Data.List.FinRange
import Mathlib.Logic.Function.Basic

/-! # Chained hash tables

Entries are kept in one chain for each bucket, the bucket being a function of
the entry's key. Whatever the bucket function and however keys collide, a table
whose chains carry only their own keys, each once, behaves as a partial map.
-/
namespace EzpFirmware.Lib

variable {K E : Type*} [DecidableEq K] {n : ℕ}

/-- Put `u` in the place of the first entry that satisfies `p`. -/
def putFirst (p : E → Bool) (u : E) : List E → List E
  | [] => []
  | e :: es => if p e then u :: es else e :: putFirst p u es

/-- Every entry is in the chain of its key and no key occurs twice in a chain. -/
structure Chained (key : E → K) (bucket : K → Fin n) (tab : Fin n → List E) : Prop where
  placed : ∀ i, ∀ e ∈ tab i, bucket (key e) = i
  distinct : ∀ i, ((tab i).map key).Nodup

namespace Chains

variable (key : E → K) (bucket : K → Fin n)

/-- The entry of key `k`: the first of its name in the chain of its bucket. -/
def find (tab : Fin n → List E) (k : K) : Option E :=
  (tab (bucket k)).find? (fun e => key e = k)

/-- All entries, bucket by bucket. -/
def entries (tab : Fin n → List E) : List E := (List.finRange n).flatMap tab

variable {key bucket} {tab : Fin n → List E}

@[simp] theorem mem_entries {e : E} : e ∈ entries tab ↔ ∃ i, e ∈ tab i := by
  simp [entries]

theorem find_key {k : K} {e : E} (h : find key bucket tab k = some e) : key e = k := by
  simpa using List.find?_some h

theorem find_mem {k : K} {e : E} (h : find key bucket tab k = some e) : e ∈ entries tab :=
  mem_entries.mpr ⟨_, List.mem_of_find?_eq_some h⟩

end Chains

namespace Chained

open Chains

variable {key : E → K} {bucket : K → Fin n} {tab : Fin n → List E}

omit [DecidableEq K] in
theorem empty : Chained key bucket (fun _ => []) := ⟨by simp, by simp⟩

/-- In a list whose keys are distinct, the search for an entry's key finds that entry. -/
private theorem find_of_mem {l : List E} (hl : (l.map key).Nodup) {e : E} (he : e ∈ l) :
    l.find? (fun x => key x = key e) = some e := by
  induction l with
  | nil => simp at he
  | cons x xs ih =>
    rw [List.map_cons, List.nodup_cons] at hl
    rcases List.mem_cons.mp he with rfl | hx
    · simp
    · have hne : key x ≠ key e := fun h => hl.1 (h ▸ List.mem_map_of_mem hx)
      rw [List.find?_cons_of_neg (by simpa using hne)]
      exact ih hl.2 hx

/-- The entries are exactly the results of searches. -/
theorem mem_iff_find (h : Chained key bucket tab) {e : E} :
    e ∈ entries tab ↔ find key bucket tab (key e) = some e := by
  constructor
  · intro he
    obtain ⟨i, hi⟩ := mem_entries.mp he
    have hb := h.placed i e hi
    subst hb
    exact find_of_mem (h.distinct _) hi
  · exact find_mem

omit [DecidableEq K] in
theorem entries_nodup (h : Chained key bucket tab) : ((entries tab).map key).Nodup := by
  rw [entries, List.map_flatMap, List.nodup_flatMap]
  refine ⟨fun i _ => h.distinct i, ?_⟩
  refine (List.nodup_finRange n).imp ?_
  intro i j hij k hi hj
  obtain ⟨e, he, rfl⟩ := List.mem_map.mp hi
  obtain ⟨f, hf, hk⟩ := List.mem_map.mp hj
  exact hij (by rw [← h.placed i e he, ← h.placed j f hf, hk])

omit [DecidableEq K] in
/-- Changing one chain keeps the table chained when the new chain is. -/
theorem update (h : Chained key bucket tab) {i : Fin n} {l : List E}
    (hp : ∀ e ∈ l, bucket (key e) = i) (hd : (l.map key).Nodup) :
    Chained key bucket (Function.update tab i l) := by
  constructor
  · intro j e he
    by_cases hj : j = i
    · subst hj
      exact hp e (by simpa using he)
    · exact h.placed j e (by simpa [Function.update_of_ne hj] using he)
  · intro j
    by_cases hj : j = i
    · subst hj
      simpa using hd
    · simpa [Function.update_of_ne hj] using h.distinct j

theorem push (h : Chained key bucket tab) {e : E}
    (hf : find key bucket tab (key e) = none) :
    Chained key bucket
      (Function.update tab (bucket (key e)) (e :: tab (bucket (key e)))) := by
  apply h.update
  · intro x hx
    rcases List.mem_cons.mp hx with rfl | hx
    · rfl
    · exact h.placed _ x hx
  · rw [List.map_cons, List.nodup_cons]
    refine ⟨fun hm => ?_, h.distinct _⟩
    obtain ⟨x, hx, hk⟩ := List.mem_map.mp hm
    have hn := List.find?_eq_none.mp hf x hx
    simp [hk] at hn

omit [DecidableEq K] in
private theorem map_putFirst {p : E → Bool} {u : E} (hu : ∀ e, p e → key e = key u)
    (l : List E) : (putFirst p u l).map key = l.map key := by
  induction l with
  | nil => rfl
  | cons e es ih =>
    simp only [putFirst]
    split
    case isTrue hp => simp [hu e hp]
    case isFalse => simp [ih]

theorem put (h : Chained key bucket tab) {k : K} {u : E} (hu : key u = k) :
    Chained key bucket (Function.update tab (bucket k)
      (putFirst (fun e => key e = k) u (tab (bucket k)))) := by
  have hm : (putFirst (fun e => key e = k) u (tab (bucket k))).map key = (tab (bucket k)).map key :=
    map_putFirst (fun e he => by rw [hu]; simpa using he) (tab (bucket k))
  apply h.update
  · intro e he
    have hk : key e ∈ (tab (bucket k)).map key := hm ▸ List.mem_map_of_mem he
    obtain ⟨x, hx, hxk⟩ := List.mem_map.mp hk
    rw [← hxk]
    exact h.placed _ x hx
  · rw [hm]
    exact h.distinct _

theorem erase (h : Chained key bucket tab) (k : K) :
    Chained key bucket (Function.update tab (bucket k)
      ((tab (bucket k)).eraseP (fun e => key e = k))) := by
  apply h.update
  · exact fun e he => h.placed _ e (List.mem_of_mem_eraseP he)
  · exact (h.distinct _).sublist (List.eraseP_sublist.map key)

end Chained

namespace Chains

variable {key : E → K} {bucket : K → Fin n} {tab : Fin n → List E}

theorem find_update_of_ne {i : Fin n} {l : List E} {k : K} (hk : bucket k ≠ i) :
    find key bucket (Function.update tab i l) k = find key bucket tab k := by
  rw [find, find, Function.update_of_ne hk]

theorem find_push (e : E) (k : K) :
    find key bucket (Function.update tab (bucket (key e)) (e :: tab (bucket (key e)))) k =
      if k = key e then some e else find key bucket tab k := by
  by_cases hk : k = key e
  · subst hk
    simp [find]
  · rw [if_neg hk]
    by_cases hb : bucket k = bucket (key e)
    · simp [find, hb, Ne.symm hk]
    · exact find_update_of_ne hb

private theorem find_putFirst_self {k : K} {u : E} (hu : key u = k) (l : List E) :
    (putFirst (fun e => key e = k) u l).find? (fun e => key e = k) =
      (l.find? (fun e => key e = k)).map (fun _ => u) := by
  induction l with
  | nil => rfl
  | cons e es ih =>
    by_cases he : key e = k
    · simp [putFirst, he, hu]
    · simp [putFirst, he, ih]

private theorem find_putFirst_other {k k' : K} (hk : k' ≠ k) {u : E} (hu : key u = k)
    (l : List E) :
    (putFirst (fun e => key e = k) u l).find? (fun e => key e = k') =
      l.find? (fun e => key e = k') := by
  induction l with
  | nil => rfl
  | cons e es ih =>
    by_cases he : key e = k
    · simp [putFirst, he, hu, Ne.symm hk]
    · by_cases he' : key e = k'
      · simp [putFirst, he', hk]
      · simp [putFirst, he, he', ih]

theorem find_put {k : K} {u : E} (hu : key u = k) (k' : K) :
    find key bucket (Function.update tab (bucket k)
      (putFirst (fun e => key e = k) u (tab (bucket k)))) k' =
      if k' = k then (find key bucket tab k).map (fun _ => u)
      else find key bucket tab k' := by
  by_cases hk : k' = k
  · subst hk
    simpa [find] using find_putFirst_self hu _
  · rw [if_neg hk]
    by_cases hb : bucket k' = bucket k
    · simpa [find, hb] using find_putFirst_other hk hu _
    · exact find_update_of_ne hb

private theorem find_eraseP_self {k : K} {l : List E} (hl : (l.map key).Nodup) :
    (l.eraseP (fun e => key e = k)).find? (fun e => key e = k) = none := by
  induction l with
  | nil => rfl
  | cons e es ih =>
    rw [List.map_cons, List.nodup_cons] at hl
    by_cases he : key e = k
    · rw [List.eraseP_cons_of_pos (by simpa using he), List.find?_eq_none]
      intro x hx hxk
      exact hl.1 (he ▸ (by simpa using hxk : key x = k) ▸ List.mem_map_of_mem hx)
    · simp [he, ih hl.2]

private theorem find_eraseP_other {k k' : K} (hk : k' ≠ k) (l : List E) :
    (l.eraseP (fun e => key e = k)).find? (fun e => key e = k') =
      l.find? (fun e => key e = k') := by
  induction l with
  | nil => rfl
  | cons e es ih =>
    by_cases he : key e = k
    · simp [he, Ne.symm hk]
    · by_cases he' : key e = k'
      · simp [he', hk]
      · simp [he, he', ih]

theorem find_erase (h : Chained key bucket tab) (k k' : K) :
    find key bucket (Function.update tab (bucket k)
      ((tab (bucket k)).eraseP (fun e => key e = k))) k' =
      if k' = k then none else find key bucket tab k' := by
  by_cases hk : k' = k
  · subst hk
    simpa [find] using find_eraseP_self (h.distinct _)
  · rw [if_neg hk]
    by_cases hb : bucket k' = bucket k
    · simpa [find, hb] using find_eraseP_other hk _
    · exact find_update_of_ne hb

end Chains

end EzpFirmware.Lib
