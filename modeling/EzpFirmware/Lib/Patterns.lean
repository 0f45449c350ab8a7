import Mathlib.Computability.Language
import Mathlib.Data.List.Basic
import Mathlib.Data.List.TakeWhile

/-! # Patterns

A pattern is a list of classes, one for each character. Where a text is made of
fields with a separator behind each, and no class of a field holds of the
separator, a pattern of fields is matched field by field.
-/
namespace EzpFirmware.Lib

/-- A class of characters. -/
inductive CharClass (α : Type*) where
  | self (c : α)
  | any
  | range (lo hi : α)
  deriving DecidableEq

namespace CharClass

variable {α : Type*} [DecidableEq α] [LE α] [DecidableLE α]

/-- The character is in the class. -/
def holds : CharClass α → α → Bool
  | self c, b => b = c
  | any, _ => true
  | range lo hi, b => lo ≤ b ∧ b ≤ hi

/-- The text has one character of each class. -/
def fits : List (CharClass α) → List α → Bool
  | [], [] => true
  | k :: ks, b :: s => k.holds b && fits ks s
  | _, _ => false

/-- The text starts with one character of each class. -/
def fitsPrefix : List (CharClass α) → List α → Bool
  | [], _ => true
  | k :: ks, b :: s => k.holds b && fitsPrefix ks s
  | _ :: _, [] => false

/-- The first field is matched up to its separator. -/
theorem fitsPrefix_field {sep : α} {ks : List (CharClass α)} {w : List α}
    (hks : ∀ k ∈ ks, k.holds sep = false) (hw : sep ∉ w) (more : List (CharClass α)) (t : List α) :
    fitsPrefix (ks ++ self sep :: more) (w ++ sep :: t) = (fits ks w && fitsPrefix more t) := by
  induction ks generalizing w with
  | nil =>
    cases w with
    | nil => simp [fitsPrefix, fits, holds]
    | cons b w =>
      have hb : b ≠ sep := fun h => hw (h ▸ List.mem_cons_self)
      simp [fitsPrefix, fits, holds, hb]
  | cons k ks ih =>
    have hrest : ∀ k ∈ ks, k.holds sep = false := fun k hk => hks k (List.mem_cons_of_mem _ hk)
    cases w with
    | nil => simp [fitsPrefix, fits, hks k List.mem_cons_self]
    | cons b w =>
      have htail := ih hrest (w := w) fun h => hw (List.mem_cons_of_mem b h)
      rw [List.cons_append, List.cons_append, fitsPrefix, htail, fits, Bool.and_assoc]

end CharClass

/-! ## Patterns with wildcards

A pattern is a list of parts, each of which stands for a language, and the
pattern stands for their product. A matcher tries where the rest of a pattern
may start; the lemmas say that these places are all there are.
-/

/-- A part of a pattern. -/
inductive Wildcard (α : Type*) where
  | one
  | run
  | any
  | self (c : α)

namespace Wildcard
variable {α : Type*} {barrier c : α} {s : List α} {ws : List (Wildcard α)}

/-- What a part stands for. A run does not pass the barrier. -/
def language (barrier : α) : Wildcard α → Language α
  | one => {s : List α | s.length = 1}
  | run => {s : List α | barrier ∉ s}
  | any => (Set.univ : Set (List α))
  | self c => {[c]}

/-- What a pattern stands for. -/
def languageOf (barrier : α) (ws : List (Wildcard α)) : Language α :=
  (ws.map (language barrier)).prod

theorem mem_nil : s ∈ languageOf barrier [] ↔ s = [] := Iff.rfl

theorem mem_cons {w : Wildcard α} : s ∈ languageOf barrier (w :: ws) ↔
    ∃ a ∈ language barrier w, ∃ b ∈ languageOf barrier ws, a ++ b = s := by
  rw [languageOf, List.map_cons, List.prod_cons]
  exact Language.mem_mul

theorem mem_self_cons :
    s ∈ languageOf barrier (self c :: ws) ↔ ∃ t, s = c :: t ∧ t ∈ languageOf barrier ws := by
  rw [mem_cons]
  constructor
  · rintro ⟨a, rfl, b, hb, rfl⟩
    exact ⟨b, rfl, hb⟩
  · rintro ⟨t, rfl, ht⟩
    exact ⟨[c], rfl, t, ht, rfl⟩

theorem mem_one_cons :
    s ∈ languageOf barrier (one :: ws) ↔ ∃ c t, s = c :: t ∧ t ∈ languageOf barrier ws := by
  rw [mem_cons]
  constructor
  · rintro ⟨a, ha, b, hb, rfl⟩
    obtain ⟨c, rfl⟩ := List.length_eq_one_iff.mp ha
    exact ⟨c, b, rfl, hb⟩
  · rintro ⟨c, t, rfl, ht⟩
    exact ⟨[c], rfl, t, ht, rfl⟩

/-- The rest of the pattern may start anywhere. -/
theorem mem_any_cons : s ∈ languageOf barrier (any :: ws) ↔
    ∃ i ≤ s.length, s.drop i ∈ languageOf barrier ws := by
  rw [mem_cons]
  constructor
  · rintro ⟨a, -, b, hb, rfl⟩
    refine ⟨a.length, by simp, ?_⟩
    rwa [List.drop_left]
  · rintro ⟨i, -, hi⟩
    exact ⟨s.take i, trivial, s.drop i, hi, List.take_append_drop i s⟩

/-- The rest of the pattern starts at the first barrier or before it. -/
theorem mem_run_cons [DecidableEq α] : s ∈ languageOf barrier (run :: ws) ↔
    ∃ i ≤ (s.takeWhile (· != barrier)).length, s.drop i ∈ languageOf barrier ws := by
  rw [mem_cons]
  constructor
  · rintro ⟨a, ha, b, hb, rfl⟩
    refine ⟨a.length, ?_, by rwa [List.drop_left]⟩
    have hfree : ∀ x ∈ a, (x != barrier) = true := fun x hx =>
      bne_iff_ne.mpr fun h => ha (h ▸ hx)
    rw [List.takeWhile_append_of_pos hfree, List.length_append]
    exact Nat.le_add_right _ _
  · rintro ⟨i, hi, hrest⟩
    refine ⟨s.take i, ?_, s.drop i, hrest, List.take_append_drop i s⟩
    -- what is skipped lies in front of the first barrier
    have hlead : s.take i = (s.takeWhile (· != barrier)).take i := by
      rw [← List.takeWhile_append_dropWhile (p := (· != barrier)) (l := s),
        List.take_append_of_le_length hi, List.takeWhile_append_dropWhile]
    intro hmem
    rw [hlead] at hmem
    have hne := List.mem_takeWhile_imp (List.mem_of_mem_take hmem)
    exact absurd rfl (bne_iff_ne.mp hne)

/-- The parts of a pattern as it is written. Two stars stand for any run. -/
def parse [DecidableEq α] (question star : α) : List α → List (Wildcard α)
  | [] => []
  | p :: ps =>
    if p = question then one :: parse question star ps
    else if p = star then
      match ps with
      | [] => [run]
      | q :: qs =>
        if q = star then any :: parse question star qs
        else run :: parse question star (q :: qs)
    else self p :: parse question star ps

section
variable [DecidableEq α] {question star p q : α} {ps qs : List α}

theorem parse_question : parse question star (question :: ps) = one :: parse question star ps := by
  rw [parse.eq_def]
  exact if_pos rfl

theorem parse_star_end (h : star ≠ question) : parse question star [star] = [run] :=
  (if_neg h).trans (if_pos rfl)

theorem parse_two_stars (h : star ≠ question) :
    parse question star (star :: star :: qs) = any :: parse question star qs :=
  (if_neg h).trans ((if_pos rfl).trans (if_pos rfl))

theorem parse_star (h : star ≠ question) (hq : q ≠ star) :
    parse question star (star :: q :: qs) = run :: parse question star (q :: qs) :=
  (if_neg h).trans ((if_pos rfl).trans (if_neg hq))

theorem parse_self (hquestion : p ≠ question) (hstar : p ≠ star) :
    parse question star (p :: ps) = self p :: parse question star ps := by
  rw [parse.eq_def]
  exact (if_neg hquestion).trans (if_neg hstar)

end

end Wildcard

end EzpFirmware.Lib
