import Mathlib.Algebra.Order.Group.Defs
import Mathlib.Algebra.Order.Monoid.Defs
import Mathlib.Data.Finset.Card
import Mathlib.Data.Finset.Insert
import Mathlib.Data.Nat.Find
import Mathlib.Data.List.Basic

/-! # Levels with hysteresis

A reading is put on the first of several levels whose limit it is below. The level
that holds at the moment is left upwards only when the reading is a band above its limit.
-/
namespace EzpFirmware.Lib

/-! ## Sequences that do not come back -/

/-- No value is taken again after another one. -/
def NoWayBack {α : Type*} (l : List α) : Prop := ∀ a b, a ≠ b → ¬ [a, b, a].Sublist l

/-- How often the value changes along a list. -/
def changes {α : Type*} [DecidableEq α] : List α → ℕ
  | [] => 0
  | [_] => 0
  | a :: b :: l => (if a = b then 0 else 1) + changes (b :: l)

section
variable {α β : Type*}

theorem NoWayBack.of_cons {a : α} {l : List α} (h : NoWayBack (a :: l)) : NoWayBack l := by
  intro b c hne hsub
  exact h b c hne (hsub.cons a)

theorem NoWayBack.notMem {a b : α} {l : List α} (h : NoWayBack (a :: b :: l)) (hne : a ≠ b) :
    a ∉ b :: l := by
  intro hmem
  rcases List.mem_cons.mp hmem with heq | hmem
  · exact hne heq
  · apply h a b hne
    exact ((List.singleton_sublist.mpr hmem).cons_cons b).cons_cons a

/-- It is enough that the images of the values do not come back. -/
theorem NoWayBack.of_map {f : α → β} {l : List α} (h : NoWayBack (l.map f))
    (hinj : ∀ a ∈ l, ∀ b ∈ l, f a = f b → a = b) : NoWayBack l := by
  intro a b hne hsub
  have ha : a ∈ l := hsub.subset (by simp)
  have hb : b ∈ l := hsub.subset (by simp)
  apply h (f a) (f b)
  · intro heq
    exact hne (hinj a ha b hb heq)
  · exact hsub.map f

/-- A list that does not come back changes less often than it has values. -/
theorem NoWayBack.changes_lt [DecidableEq α] {l : List α} (h : NoWayBack l) (hne : l ≠ []) :
    changes l < l.toFinset.card := by
  induction l with
  | nil => exact absurd rfl hne
  | cons a l ih =>
    cases l with
    | nil => simp [changes]
    | cons b l =>
      have hrest := ih h.of_cons (List.cons_ne_nil b l)
      rw [List.toFinset_cons, changes]
      by_cases hab : a = b
      · subst hab
        rw [if_pos rfl, Finset.insert_eq_of_mem (by simp)]
        omega
      · have hnot : a ∉ (b :: l).toFinset := by
          rw [List.mem_toFinset]
          exact h.notMem hab
        rw [if_neg hab, Finset.card_insert_of_notMem hnot]
        omega

end

/-! ## Levels -/

/-- The limits of the levels, of which the first `count` matter, and the width of the band. -/
structure Bands (α : Type*) [LE α] where
  count : ℕ
  limit : ℕ → α
  band : α
  limit_mono : ∀ i j, i ≤ j → limit i ≤ limit j

namespace Bands
variable {α : Type*} [AddCommGroup α] [LinearOrder α] (b : Bands α)

/-- The reading belongs to a level, which may be the one that holds. -/
def Holds (cur : ℕ) (x : α) (i : ℕ) : Prop :=
  x < b.limit i ∨ (cur = i ∧ x < b.limit i + b.band)

instance (cur : ℕ) (x : α) (i : ℕ) : Decidable (b.Holds cur x i) :=
  inferInstanceAs (Decidable (_ ∨ _))

theorem exists_level (cur : ℕ) (x : α) : ∃ i, b.count ≤ i ∨ b.Holds cur x i :=
  ⟨b.count, .inl le_rfl⟩

/-- The first level that a reading belongs to. -/
def next (cur : ℕ) (x : α) : ℕ := Nat.find (b.exists_level cur x)

/-- A reading may be missing. -/
def step (cur : ℕ) : Option α → ℕ
  | none => cur
  | some x => b.next cur x

variable {b} {cur i : ℕ} {x : α}

theorem next_le_count : b.next cur x ≤ b.count := Nat.find_min' _ (.inl le_rfl)

theorem holds_next (h : b.next cur x < b.count) : b.Holds cur x (b.next cur x) := by
  rcases Nat.find_spec (b.exists_level cur x) with hge | hholds
  · exact absurd h (not_lt.mpr hge)
  · exact hholds

theorem not_holds_of_lt_next (h : i < b.next cur x) : ¬ b.Holds cur x i := by
  intro hholds
  exact Nat.find_min (b.exists_level cur x) h (.inr hholds)

theorem next_le_of_holds (h : b.Holds cur x i) : b.next cur x ≤ i := Nat.find_min' _ (.inr h)

theorem next_eq (hbelow : ∀ j < i, ¬ b.Holds cur x j) (hcount : i ≤ b.count)
    (hi : i = b.count ∨ b.Holds cur x i) : b.next cur x = i := by
  apply le_antisymm
  · rcases hi with rfl | hholds
    · exact next_le_count
    · exact next_le_of_holds hholds
  · by_contra hlt
    have hin : b.next cur x < i := not_le.mp hlt
    exact hbelow _ hin (holds_next (hin.trans_le hcount))

/-- A level other than the one that holds is entered below its limit. -/
theorem lt_limit_of_next_lt (hcur : cur ≤ b.count) (h : b.next cur x < cur) :
    x < b.limit (b.next cur x) := by
  rcases holds_next (h.trans_le hcur) with hlt | ⟨heq, -⟩
  · exact hlt
  · exact absurd heq (ne_of_gt h)

/-- A level is left upwards a band above its limit. -/
theorem limit_le_of_lt_next (h : cur < b.next cur x) : b.limit cur + b.band ≤ x := by
  have hnot := not_holds_of_lt_next h
  rw [Holds, not_or] at hnot
  by_contra hlt
  exact hnot.2 ⟨rfl, not_le.mp hlt⟩

/-- The level that holds never lies above the one without a band. -/
theorem next_le_of_next {free : ℕ} (hfree : b.count ≤ free) : b.next cur x ≤ b.next free x := by
  by_cases hall : b.next free x < b.count
  · rcases holds_next hall with hlt | ⟨heq, -⟩
    · exact next_le_of_holds (.inl hlt)
    · omega
  · exact next_le_count.trans (not_lt.mp hall)

/-! ## Readings that lie close together -/

variable [IsOrderedAddMonoid α] {lo hi : α} {xs : List (Option α)}

/-- All readings lie in an interval. -/
def Within (lo hi : α) (xs : List (Option α)) : Prop := ∀ x, some x ∈ xs → lo ≤ x ∧ x ≤ hi

omit [AddCommGroup α] [IsOrderedAddMonoid α] in
theorem Within.of_cons {o : Option α} (h : Within lo hi (o :: xs)) : Within lo hi xs := by
  intro x hx
  exact h x (List.mem_cons_of_mem o hx)

/-- Behind a reading below the limit of the level that holds, no level above it is taken. -/
theorem next_le_of_low {y : α} (hwidth : hi < lo + b.band)
    (hy : y < b.limit cur) (hylo : lo ≤ y) (hxhi : x ≤ hi) : b.next cur x ≤ cur := by
  by_contra hlt
  have hleave := limit_le_of_lt_next (not_le.mp hlt)
  have hfar : lo + b.band < b.limit cur + b.band :=
    add_lt_add_left (lt_of_le_of_lt hylo hy) b.band
  exact absurd hxhi (not_le.mpr (hwidth.trans (hfar.trans_le hleave)))

/-- The levels only fall once a reading was below the limit of the one that holds. -/
theorem scanl_le_of_low {y : α} (hwidth : hi < lo + b.band) (h : Within lo hi xs)
    (hcur : cur < b.count) (hy : y < b.limit cur) (hylo : lo ≤ y) :
    ∀ i ∈ xs.scanl b.step cur, i ≤ cur := by
  induction xs generalizing cur y with
  | nil => simp
  | cons o xs ih =>
    intro i hi
    rw [List.scanl_cons, List.mem_cons] at hi
    rcases hi with rfl | hi
    · exact le_rfl
    · cases o with
      | none => exact ih h.of_cons hcur hy hylo i hi
      | some x =>
        obtain ⟨hxlo, hxhi⟩ := h x List.mem_cons_self
        have hle : b.next cur x ≤ cur := next_le_of_low hwidth hy hylo hxhi
        rcases hle.eq_or_lt with heq | hlt
        · apply ih h.of_cons hcur hy hylo i
          rwa [← heq]
        · have hlow := lt_limit_of_next_lt hcur.le hlt
          exact (ih h.of_cons (hlt.trans hcur) hlow hxlo i hi).trans hle

/-- A level that was left upwards is not taken again. -/
theorem lt_scanl_of_high {left : ℕ} {y : α} (hwidth : hi < lo + b.band) (h : Within lo hi xs)
    (hleft : left < cur) (hy : b.limit left + b.band ≤ y) (hyhi : y ≤ hi)
    (hcur : cur ≤ b.count) : ∀ i ∈ xs.scanl b.step cur, left < i := by
  have hlimit : b.limit left < lo := by
    have hfar := (hy.trans hyhi).trans_lt hwidth
    exact lt_of_add_lt_add_right hfar
  induction xs generalizing cur with
  | nil => simpa using hleft
  | cons o xs ih =>
    intro i hi
    rw [List.scanl_cons, List.mem_cons] at hi
    rcases hi with rfl | hi
    · exact hleft
    · cases o with
      | none => exact ih h.of_cons hleft hcur i hi
      | some x =>
        obtain ⟨hxlo, -⟩ := h x List.mem_cons_self
        apply ih h.of_cons _ next_le_count i hi
        by_contra hle
        have hdown : b.next cur x < cur := (not_lt.mp hle).trans_lt hleft
        have hlow := lt_limit_of_next_lt hcur hdown
        have hmono := b.limit_mono _ _ (not_lt.mp hle)
        exact absurd (hxlo.trans_lt (hlow.trans_le hmono)) (not_lt.mpr hlimit.le)

theorem exists_scanl_eq_cons {β γ : Type*} (f : β → γ → β) (c : β) (l : List γ) :
    ∃ tail, l.scanl f c = c :: tail := by
  cases l with
  | nil => exact ⟨[], List.scanl_nil⟩
  | cons a l => exact ⟨_, List.scanl_cons⟩

/-- Along readings that are no further apart than the band no level is taken again. -/
theorem noWayBack_scanl (hwidth : hi < lo + b.band) (h : Within lo hi xs)
    (hcur : cur ≤ b.count) : NoWayBack (xs.scanl b.step cur) := by
  induction xs generalizing cur with
  | nil =>
    intro i j _ hsub
    exact absurd hsub.length_le (by simp)
  | cons o xs ih =>
    intro i j hne hsub
    have hrest : b.step cur o ≤ b.count := by
      cases o with
      | none => exact hcur
      | some x => exact next_le_count
    have hlater := ih h.of_cons hrest
    rw [List.scanl_cons, List.sublist_cons_iff] at hsub
    rcases hsub with hsub | ⟨r, hr, hsub⟩
    · exact hlater i j hne hsub
    · obtain ⟨rfl, rfl⟩ := List.cons.inj hr
      -- the level stays until it is left, and the side it is left to decides
      by_cases hstay : b.step i o = i
      · rw [hstay] at hlater hsub
        obtain ⟨tail, htail⟩ := exists_scanl_eq_cons b.step i xs
        rw [htail] at hlater hsub
        rcases List.sublist_cons_iff.mp hsub with hsub | ⟨r, hr, -⟩
        · exact hlater i j hne (hsub.cons_cons i)
        · exact hne (List.cons.inj hr).1.symm
      · have hmem : i ∈ xs.scanl b.step (b.step i o) := hsub.subset (by simp)
        cases o with
        | none => exact hstay rfl
        | some x =>
          obtain ⟨hxlo, hxhi⟩ := h x List.mem_cons_self
          rcases lt_or_gt_of_ne hstay with hdown | hup
          · have hlow := lt_limit_of_next_lt hcur hdown
            have hle := scanl_le_of_low hwidth h.of_cons (hdown.trans_le hcur) hlow hxlo i hmem
            exact absurd hle (not_le.mpr hdown)
          · have hhigh := limit_le_of_lt_next hup
            exact lt_irrefl i
              (lt_scanl_of_high hwidth h.of_cons hup hhigh hxhi hrest i hmem)

end Bands

end EzpFirmware.Lib
