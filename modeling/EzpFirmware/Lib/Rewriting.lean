import Mathlib.Data.List.Basic
import Mathlib.Algebra.Order.Group.Nat
import Mathlib.Algebra.BigOperators.Group.List.Basic
import Mathlib.Algebra.Ring.Nat

/-! # Rewriting a list in place

The first elements of a list are rewritten one after the other, each where it
stands. The list has room for a total weight only. A rewrite for which there is
no room is left out, and the ones behind it are tried all the same.
-/
namespace EzpFirmware.Lib
variable {α : Type*}

def total (weight : α → ℕ) (rs : List α) : ℕ := (rs.map weight).sum

/-- One element is replaced, if there is room before and some is left after it. -/
def replaceAt (weight : α → ℕ) (room : ℕ) (rs : List α) (i : ℕ) (x : α) : List α :=
  if total weight rs ≤ room ∧ total weight (rs.set i x) < room then rs.set i x else rs

/-- The first `n` elements are rewritten as far as there is room. -/
def rewriteFirst (weight : α → ℕ) (room : ℕ) (f : α → α) (rs : List α) : ℕ → List α
  | 0 => rs
  | n + 1 =>
    match rs[n]? with
    | none => rewriteFirst weight room f rs n
    | some r => replaceAt weight room (rewriteFirst weight room f rs n) n (f r)

/-- The first `n` elements rewritten. -/
def mapFirst (n : ℕ) (f : α → α) (rs : List α) : List α :=
  rs.mapIdx fun i r => if i < n then f r else r

section
variable {weight : α → ℕ} {room : ℕ} {f g h : α → α} {rs : List α} {r x : α} {i j n : ℕ}

theorem replaceAt_eq : replaceAt weight room rs i x =
    if total weight rs ≤ room ∧ total weight (rs.set i x) < room then rs.set i x else rs := rfl

theorem rewriteFirst_zero : rewriteFirst weight room f rs 0 = rs := rfl

theorem rewriteFirst_succ : rewriteFirst weight room f rs (n + 1) =
    match rs[n]? with
    | none => rewriteFirst weight room f rs n
    | some r => replaceAt weight room (rewriteFirst weight room f rs n) n (f r) := rfl

theorem total_set (weight : α → ℕ) (x : α) (hr : rs[i]? = some r) :
    total weight (rs.set i x) + weight r = total weight rs + weight x := by
  induction rs generalizing i with
  | nil => cases hr
  | cons a rs ih =>
    cases i with
    | zero =>
      cases hr
      simp [total]
      omega
    | succ i =>
      have hrest := ih hr
      simp only [total, List.set_cons_succ, List.map_cons, List.sum_cons] at hrest ⊢
      omega

/-! ## All of them -/

@[simp] theorem getElem?_mapFirst :
    (mapFirst n f rs)[j]? = if j < n then rs[j]?.map f else rs[j]? := by
  rw [mapFirst, List.getElem?_mapIdx]
  by_cases hj : j < n <;> simp [hj]

@[simp] theorem mapFirst_zero : mapFirst 0 f rs = rs := by
  ext1 j
  simp

theorem set_mapFirst (hr : rs[n]? = some r) :
    (mapFirst n f rs).set n (f r) = mapFirst (n + 1) f rs := by
  ext1 j
  rw [List.getElem?_set, getElem?_mapFirst, getElem?_mapFirst]
  have hn : n < (mapFirst n f rs).length := by
    rw [mapFirst, List.length_mapIdx]
    exact (List.getElem?_eq_some_iff.mp hr).1
  by_cases hj : n = j
  · subst hj
    simp [hr, hn]
  · have hlt : j < n + 1 ↔ j < n := by omega
    simp [hj, hlt]

theorem mapFirst_none (hr : rs[n]? = none) : mapFirst (n + 1) f rs = mapFirst n f rs := by
  ext1 j
  rw [getElem?_mapFirst, getElem?_mapFirst]
  by_cases hj : j = n
  · subst hj
    simp [hr]
  · have hlt : j < n + 1 ↔ j < n := by omega
    simp [hlt]

/-- A rewrite that another one takes back. -/
theorem mapFirst_mapFirst (hback : ∀ r ∈ rs, h (g r) = r) :
    mapFirst n h (mapFirst n g rs) = rs := by
  ext1 j
  rw [getElem?_mapFirst, getElem?_mapFirst]
  by_cases hj : j < n
  · rw [if_pos hj, if_pos hj]
    cases hr : rs[j]? with
    | none => rfl
    | some r => exact congrArg some (hback r (List.mem_of_getElem? hr))
  · rw [if_neg hj, if_neg hj]

/-! ## As far as there is room -/

theorem getElem?_replaceAt (hj : i ≠ j) : (replaceAt weight room rs i x)[j]? = rs[j]? := by
  rw [replaceAt_eq]
  split
  · exact List.getElem?_set_ne hj
  · rfl

theorem getElem?_replaceAt_self (weight : α → ℕ) (room : ℕ) (rs : List α) (i : ℕ) (x : α) :
    (replaceAt weight room rs i x)[i]? = rs[i]? ∨ (replaceAt weight room rs i x)[i]? = some x := by
  rw [replaceAt_eq]
  split
  · by_cases hi : i < rs.length
    · exact .inr (List.getElem?_set_self hi)
    · exact .inl (by rw [List.set_eq_of_length_le (not_lt.mp hi)])
  · exact .inl rfl

theorem replaceAt_length : (replaceAt weight room rs i x).length = rs.length := by
  rw [replaceAt_eq]
  split
  · exact List.length_set
  · rfl

theorem replaceAt_total (hroom : total weight rs ≤ room) :
    total weight (replaceAt weight room rs i x) ≤ room := by
  rw [replaceAt_eq]
  split_ifs with hfit
  · exact hfit.2.le
  · exact hroom

theorem rewriteFirst_length : (rewriteFirst weight room f rs n).length = rs.length := by
  induction n with
  | zero => rfl
  | succ n ih =>
    rw [rewriteFirst_succ]
    split
    · exact ih
    · rw [replaceAt_length, ih]

theorem rewriteFirst_total (hroom : total weight rs ≤ room) :
    total weight (rewriteFirst weight room f rs n) ≤ room := by
  induction n with
  | zero => exact hroom
  | succ n ih =>
    rw [rewriteFirst_succ]
    split
    · exact ih
    · exact replaceAt_total ih

/-- The elements that were not reached are as they were. -/
theorem getElem?_rewriteFirst_above (hj : n ≤ j) :
    (rewriteFirst weight room f rs n)[j]? = rs[j]? := by
  induction n with
  | zero => rfl
  | succ n ih =>
    rw [rewriteFirst_succ]
    split
    · exact ih (by omega)
    · rw [getElem?_replaceAt (by omega), ih (by omega)]

/-- Every element is rewritten or as it was. -/
theorem mem_rewriteFirst (hx : (rewriteFirst weight room f rs n)[j]? = some x) :
    ∃ r, rs[j]? = some r ∧ (x = r ∨ x = f r) := by
  induction n with
  | zero => exact ⟨x, hx, .inl rfl⟩
  | succ n ih =>
    rw [rewriteFirst_succ] at hx
    split at hx
    · exact ih hx
    · rename_i r hr
      by_cases hj : n = j
      · subst hj
        rw [replaceAt_eq] at hx
        split at hx
        · rw [List.getElem?_set_self'] at hx
          obtain ⟨-, -, rfl⟩ := Option.map_eq_some_iff.mp hx
          exact ⟨r, hr, .inr rfl⟩
        · exact ih hx
      · rw [getElem?_replaceAt hj] at hx
        exact ih hx

/-- In a list that is too long nothing is rewritten. -/
theorem rewriteFirst_over (hover : room < total weight rs) :
    rewriteFirst weight room f rs n = rs := by
  induction n with
  | zero => rfl
  | succ n ih =>
    rw [rewriteFirst_succ]
    split
    · exact ih
    · rw [ih, replaceAt_eq, if_neg fun hfit => absurd hfit.1 (not_le.mpr hover)]

theorem rewriteFirst_min (f : α → α) (rs : List α) :
    rewriteFirst weight room f rs n = rewriteFirst weight room f rs (min n rs.length) := by
  induction n with
  | zero => rw [Nat.zero_min]
  | succ n ih =>
    by_cases hn : n < rs.length
    · have hmin : min (n + 1) rs.length = n + 1 := by omega
      rw [hmin]
    · have hmin : min (n + 1) rs.length = min n rs.length := by omega
      rw [hmin, ← ih, rewriteFirst_succ, List.getElem?_eq_none (by omega)]

/-- There is room for all rewrites that make an element lighter. -/
theorem rewriteFirst_lighter (hroom : total weight rs ≤ room)
    (hlight : ∀ r ∈ rs, f r = r ∨ weight (f r) < weight r) :
    rewriteFirst weight room f rs n = mapFirst n f rs := by
  induction n with
  | zero => rw [mapFirst_zero, rewriteFirst_zero]
  | succ n ih =>
    rw [rewriteFirst_succ, ih]
    cases hr : rs[n]? with
    | none => exact (mapFirst_none hr).symm
    | some r =>
      have hnow : (mapFirst n f rs)[n]? = some r := by
        rw [getElem?_mapFirst, if_neg (lt_irrefl n), hr]
      have hbefore : total weight (mapFirst n f rs) ≤ room := ih ▸ rewriteFirst_total hroom
      dsimp only
      rw [replaceAt_eq, set_mapFirst hr]
      rcases hlight r (List.mem_of_getElem? hr) with hsame | hless
      · have hset : mapFirst (n + 1) f rs = mapFirst n f rs := by
          obtain ⟨hn, hget⟩ := List.getElem?_eq_some_iff.mp hnow
          rw [← set_mapFirst hr, hsame]
          simp only [← hget, List.set_getElem_self]
        rw [hset, ite_self]
      · have htotal := total_set weight (f r) hnow
        rw [set_mapFirst hr] at htotal
        rw [if_pos ⟨hbefore, by omega⟩]

/-! ## Rewrites that are taken back -/

/-- Rewrites that are taken back, and that leave every original alone, restore the list. -/
theorem rewriteFirst_restores
    (hback : ∀ r ∈ rs, h r = r ∧ h (g r) = r ∧ (g r = r ∨ weight r < weight (g r))) :
    rewriteFirst weight room h (rewriteFirst weight room g rs n) n = rs := by
  by_cases hroom : total weight rs ≤ room
  · have hlight : ∀ x ∈ rewriteFirst weight room g rs n, h x = x ∨ weight (h x) < weight x := by
      intro x hx
      obtain ⟨j, hj⟩ := List.mem_iff_getElem?.mp hx
      obtain ⟨r, hr, rfl | rfl⟩ := mem_rewriteFirst hj
      · exact .inl (hback x (List.mem_of_getElem? hr)).1
      · obtain ⟨-, hgr, hsame | hless⟩ := hback r (List.mem_of_getElem? hr)
        · exact .inl (hgr.trans hsame.symm)
        · rw [hgr]
          exact .inr hless
    rw [rewriteFirst_lighter (rewriteFirst_total hroom) hlight]
    ext1 j
    rw [getElem?_mapFirst]
    by_cases hj : j < n
    · rw [if_pos hj]
      cases hx : (rewriteFirst weight room g rs n)[j]? with
      | none =>
        rw [List.getElem?_eq_none_iff, rewriteFirst_length] at hx
        exact (List.getElem?_eq_none hx).symm
      | some x =>
        obtain ⟨r, hr, rfl | rfl⟩ := mem_rewriteFirst hx
        · rw [hr, Option.map_some, (hback x (List.mem_of_getElem? hr)).1]
        · rw [hr, Option.map_some, (hback r (List.mem_of_getElem? hr)).2.1]
    · rw [if_neg hj, getElem?_rewriteFirst_above (not_lt.mp hj)]
  · have hover : room < total weight rs := not_le.mp hroom
    rw [rewriteFirst_over (f := g) hover, rewriteFirst_over hover]

section
variable {c : ℕ} (hgrow : ∀ r ∈ rs, weight (g r) = weight r + c)
include hgrow

/-- Rewrites that add the same weight each are all done if there is room for all. -/
theorem rewriteFirst_grown (hn : n ≤ rs.length) (hfit : total weight rs + c * n < room) :
    rewriteFirst weight room g rs n = mapFirst n g rs ∧
      total weight (mapFirst n g rs) = total weight rs + c * n := by
  induction n with
  | zero => simp [rewriteFirst_zero]
  | succ n ih =>
    rw [Nat.mul_succ] at hfit ⊢
    obtain ⟨hlist, htotal⟩ := ih (by omega) (by omega)
    obtain ⟨r, hr⟩ : ∃ r, rs[n]? = some r := ⟨rs[n], List.getElem?_eq_getElem hn⟩
    have hnow : (mapFirst n g rs)[n]? = some r := by
      rw [getElem?_mapFirst, if_neg (lt_irrefl n), hr]
    have hset := total_set weight (g r) hnow
    have hg := hgrow r (List.mem_of_getElem? hr)
    rw [set_mapFirst hr] at hset
    refine ⟨?_, by omega⟩
    rw [rewriteFirst_succ, hr]
    dsimp only
    rw [hlist, replaceAt_eq, set_mapFirst hr, if_pos ⟨by omega, by omega⟩]

/-- The list grows with every rewrite, or is full. -/
theorem rewriteFirst_full (hn : n ≤ rs.length) :
    total weight (rewriteFirst weight room g rs n) = total weight rs + c * n ∨
      room ≤ total weight (rewriteFirst weight room g rs n) + c := by
  induction n with
  | zero => exact .inl rfl
  | succ n ih =>
    obtain ⟨r, hr⟩ : ∃ r, rs[n]? = some r := ⟨rs[n], List.getElem?_eq_getElem hn⟩
    have hnow : (rewriteFirst weight room g rs n)[n]? = some r := by
      rw [getElem?_rewriteFirst_above le_rfl, hr]
    have hset := total_set weight (g r) hnow
    have hg := hgrow r (List.mem_of_getElem? hr)
    have hprev := ih (by omega)
    rw [rewriteFirst_succ, hr, Nat.mul_succ]
    dsimp only
    rw [replaceAt_eq]
    split_ifs with hfit <;> omega

/-- Without room for all of them the last one is not done. -/
theorem getElem?_rewriteFirst_last (hn : n < rs.length)
    (hfull : room ≤ total weight rs + c * (n + 1)) :
    (rewriteFirst weight room g rs (n + 1))[n]? = rs[n]? := by
  obtain ⟨r, hr⟩ : ∃ r, rs[n]? = some r := ⟨rs[n], List.getElem?_eq_getElem hn⟩
  have hnow : (rewriteFirst weight room g rs n)[n]? = some r := by
    rw [getElem?_rewriteFirst_above le_rfl, hr]
  have hset := total_set weight (g r) hnow
  have hg := hgrow r (List.mem_of_getElem? hr)
  have hprev : total weight (rewriteFirst weight room g rs n) = total weight rs + c * n ∨
      room ≤ total weight (rewriteFirst weight room g rs n) + c := rewriteFirst_full hgrow hn.le
  rw [Nat.mul_succ] at hfull
  rw [rewriteFirst_succ, hr]
  dsimp only
  rw [replaceAt_eq, if_neg fun hfit => by omega, hnow]

/-- Rewrites that add the same weight each, and that spoil an original when they are taken back,
restore the list exactly if all were done or none. -/
theorem rewriteFirst_restores_iff (hback : ∀ r ∈ rs, h (g r) = r)
    (hspoil : ∀ r ∈ rs, weight (h r) < weight r) (hc : 0 < c) :
    rewriteFirst weight room h (rewriteFirst weight room g rs n) n = rs ↔
      min n rs.length = 0 ∨ total weight rs + c * min n rs.length < room ∨
        room < total weight rs := by
  rw [rewriteFirst_min g rs, rewriteFirst_min h, rewriteFirst_length]
  have hmin : min n rs.length ≤ rs.length := min_le_right n rs.length
  generalize min n rs.length = m at hmin
  have hlight : ∀ x ∈ rewriteFirst weight room g rs m, h x = x ∨ weight (h x) < weight x := by
    intro x hx
    obtain ⟨j, hj⟩ := List.mem_iff_getElem?.mp hx
    obtain ⟨r, hr, rfl | rfl⟩ := mem_rewriteFirst hj
    · exact .inr (hspoil x (List.mem_of_getElem? hr))
    · have hmem := List.mem_of_getElem? hr
      rw [hback r hmem, hgrow r hmem]
      exact .inr (by omega)
  by_cases hroom : total weight rs ≤ room
  · rw [rewriteFirst_lighter (rewriteFirst_total hroom) hlight]
    cases m with
    | zero => simp [rewriteFirst_zero]
    | succ n =>
      by_cases hfit : total weight rs + c * (n + 1) < room
      · rw [(rewriteFirst_grown hgrow hmin hfit).1, mapFirst_mapFirst hback]
        exact iff_of_true rfl (.inr (.inl hfit))
      · apply iff_of_false
        · intro hsame
          have hlast := congrArg (·[n]?) hsame
          have hr : rs[n]? = some rs[n] := List.getElem?_eq_getElem hmin
          simp only [getElem?_mapFirst, if_pos (Nat.lt_succ_self n),
            getElem?_rewriteFirst_last hgrow hmin (not_lt.mp hfit), hr, Option.map_some,
            Option.some.injEq] at hlast
          have hless := hspoil _ (List.getElem_mem hmin)
          rw [hlast] at hless
          exact lt_irrefl _ hless
        · omega
  · have hover : room < total weight rs := not_le.mp hroom
    rw [rewriteFirst_over (f := g) hover, rewriteFirst_over hover]
    exact iff_of_true rfl (.inr (.inr hover))

end

end

end EzpFirmware.Lib
