import Mathlib.Data.List.Infix

/-! # Where a text stands in another

The place of a text is its first one. What is found there is all of the text, so a place
leaves room for it.
-/
namespace EzpFirmware.Lib
variable {α : Type*} [BEq α] [LawfulBEq α] {text tag : List α} {p : ℕ}

/-- The first place of a text in another. -/
def placeOf (text tag : List α) : Option ℕ := text.tails.findIdx? tag.isPrefixOf

theorem placeOf_isSome (text tag : List α) : (placeOf text tag).isSome ↔ tag <:+: text := by
  rw [placeOf, List.findIdx?_isSome, List.any_eq_true, List.infix_iff_prefix_suffix]
  apply exists_congr
  intro t
  rw [List.mem_tails, List.isPrefixOf_iff_prefix, and_comm]

theorem placeOf_eq_none : placeOf text tag = none ↔ ¬tag <:+: text := by
  rw [← placeOf_isSome, Option.not_isSome_iff_eq_none]

theorem placeOf_leading (h : placeOf text tag = some p) : tag <+: text.drop p := by
  rw [placeOf, List.findIdx?_eq_some_iff_getElem] at h
  obtain ⟨hp, hfound, -⟩ := h
  rw [List.getElem_tails] at hfound
  exact List.isPrefixOf_iff_prefix.mp hfound

theorem placeOf_le (h : placeOf text tag = some p) : p + tag.length ≤ text.length := by
  have hlen := (placeOf_leading h).length_le
  rw [placeOf, List.findIdx?_eq_some_iff_getElem] at h
  obtain ⟨hp, -⟩ := h
  rw [List.length_tails] at hp
  rw [List.length_drop] at hlen
  omega

/-- The text in front of a place, the text that stands there and what is behind it. -/
theorem placeOf_split (h : placeOf text tag = some p) :
    text = text.take p ++ tag ++ text.drop (p + tag.length) := by
  obtain ⟨rest, hrest⟩ := placeOf_leading h
  have hdrop : text.drop (p + tag.length) = rest := by
    rw [← List.drop_drop, ← hrest, List.drop_left]
  rw [hdrop, List.append_assoc, hrest, List.take_append_drop]

/-! ## In a text of two parts -/

omit [LawfulBEq α] in
theorem placeOf_cons (b : α) (text tag : List α) :
    placeOf (b :: text) tag =
      if tag.isPrefixOf (b :: text) then some 0 else (placeOf text tag).map (· + 1) := by
  rw [placeOf, List.tails_cons, List.findIdx?_cons]
  rfl

/-- A text whose first element is not in front of it is found where it stands. -/
theorem placeOf_behind {a : α} {before : List α} (h : a ∉ before) (rest : List α) :
    placeOf (before ++ (a :: tag) ++ rest) (a :: tag) = some before.length := by
  induction before with
  | nil =>
    rw [List.nil_append, List.cons_append, placeOf_cons, if_pos]
    · rfl
    · rw [List.isPrefixOf_iff_prefix]
      exact List.prefix_append (a :: tag) rest
  | cons b before ih =>
    rw [List.cons_append, List.cons_append, placeOf_cons, if_neg,
      ih fun ha => h (List.mem_cons_of_mem b ha)]
    · rfl
    · rw [List.isPrefixOf_iff_prefix]
      rintro ⟨t, ht⟩
      exact h (List.mem_cons.mpr (.inl (List.cons.inj ht).1))

omit [BEq α] [LawfulBEq α] in
/-- A text without the separator ends in front of it. -/
theorem prefix_of_not_mem {sep : α} (hsep : sep ∉ tag) {rest : List α}
    (h : tag <+: text ++ sep :: rest) : tag <+: text := by
  by_cases hlen : tag.length ≤ text.length
  · exact List.prefix_of_prefix_length_le h (List.prefix_append _ _) hlen
  · have hp : text ++ [sep] <+: tag := by
      refine List.prefix_of_prefix_length_le ⟨rest, by simp⟩ h ?_
      rw [List.length_append, List.length_singleton]
      omega
    exact absurd (hp.mem (by simp)) hsep

/-- A separator that is not in the text ends a search that has found nothing. -/
theorem placeOf_append_right {sep : α} (hsep : sep ∉ tag) (hne : tag ≠ [])
    (h : placeOf text tag = none) (rest : List α) :
    placeOf (text ++ sep :: rest) tag = (placeOf rest tag).map (text.length + 1 + ·) := by
  have hfront (l : List α) (hl : ¬tag <+: l) : ¬tag.isPrefixOf (l ++ sep :: rest) = true := by
    rw [List.isPrefixOf_iff_prefix]
    exact fun hp => hl (prefix_of_not_mem hsep hp)
  induction text with
  | nil =>
    rw [List.nil_append, placeOf_cons, if_neg]
    · simp [Nat.add_comm]
    · exact hfront [] (fun hnil => hne (List.prefix_nil.mp hnil))
  | cons b text ih =>
    rw [placeOf_eq_none] at h
    rw [List.cons_append, placeOf_cons, if_neg, ih]
    · cases placeOf rest tag with
      | none => rfl
      | some k => simp [Nat.add_comm, Nat.add_left_comm]
    · exact placeOf_eq_none.mpr fun hin => h (hin.trans (List.suffix_cons b text).isInfix)
    · exact hfront (b :: text) fun hp => h hp.isInfix

end EzpFirmware.Lib
