import Mathlib.Data.List.TakeWhile

/-! # The words of a text

A text is cut at its separators, and empty pieces are no words. One pass over the text
meets the words in their order.
-/
namespace EzpFirmware.Lib
variable {α : Type*} (sep : α → Bool)

/-- The words of a text. -/
def words (text : List α) : List (List α) := (text.splitOnP sep).filter fun w => !w.isEmpty

/-- The text behind the separators at its front. -/
def skipSep (text : List α) : List α := text.dropWhile sep

/-- The first word of a text that does not start with a separator. -/
def firstWord (text : List α) : List α := text.takeWhile fun b => !sep b

/-- What is behind the first word. -/
def behindWord (text : List α) : List α := text.dropWhile fun b => !sep b

variable {sep}

@[simp] theorem words_nil : words sep [] = [] := by
  simp [words]

theorem words_sep {b : α} (hb : sep b = true) (text : List α) :
    words sep (b :: text) = words sep text := by
  simp [words, List.splitOnP_cons_eq_if_modifyHead, hb]

/-- A word at the end of the text. -/
theorem words_single {w : List α} (hw : ∀ b ∈ w, sep b = false) (hne : w ≠ []) :
    words sep w = [w] := by
  simp [words, List.splitOnP_eq_singleton hw, hne]

/-- A word and the separator behind it. -/
theorem words_word_sep {w : List α} (hw : ∀ b ∈ w, sep b = false) (hne : w ≠ []) {b : α}
    (hb : sep b = true) (text : List α) : words sep (w ++ b :: text) = w :: words sep text := by
  simp [words, List.splitOnP_append_cons_of_forall_mem hw b hb, hne]

theorem words_skipSep (text : List α) : words sep (skipSep sep text) = words sep text := by
  induction text with
  | nil => rfl
  | cons b text ih =>
    by_cases hb : sep b = true
    · rw [words_sep hb, ← ih, skipSep, List.dropWhile_cons_of_pos hb]
      rfl
    · rw [skipSep, List.dropWhile_cons_of_neg hb]

theorem skipSep_of_not {b : α} (hb : sep b = false) (text : List α) :
    skipSep sep (b :: text) = b :: text := List.dropWhile_cons_of_neg (by simp [hb])

theorem skipSep_length_le (text : List α) : (skipSep sep text).length ≤ text.length :=
  (List.dropWhile_suffix sep).length_le

/-- Behind the separators no separator is left in front. -/
theorem skipSep_head (text : List α) {b : α} {rest : List α} (h : skipSep sep text = b :: rest) :
    sep b = false := by
  have hhead := List.head?_dropWhile_not sep text
  rw [skipSep] at h
  simpa [h] using hhead

theorem firstWord_append (text : List α) : firstWord sep text ++ behindWord sep text = text :=
  List.takeWhile_append_dropWhile

theorem not_sep_of_mem_firstWord {text : List α} {b : α} (h : b ∈ firstWord sep text) :
    sep b = false := by
  simpa using List.mem_takeWhile_imp h

theorem firstWord_ne_nil {b : α} (hb : sep b = false) (text : List α) :
    firstWord sep (b :: text) ≠ [] := by
  simp [firstWord, hb]

/-- Behind a word the text ends or has a separator. -/
theorem behindWord_head {text rest : List α} {b : α} (h : behindWord sep text = b :: rest) :
    sep b = true := by
  have hhead := List.head?_dropWhile_not (fun b => !sep b) text
  rw [behindWord] at h
  simpa [h] using hhead

/-- One pass takes the first word, and the words behind it are those of the rest. -/
theorem words_cons {b : α} (hb : sep b = false) (text : List α) :
    words sep (b :: text) =
      firstWord sep (b :: text) :: words sep (behindWord sep (b :: text)) := by
  have hne := firstWord_ne_nil hb text
  have hw : ∀ c ∈ firstWord sep (b :: text), sep c = false := fun c => not_sep_of_mem_firstWord
  have happ : firstWord sep (b :: text) ++ behindWord sep (b :: text) = b :: text :=
    firstWord_append (b :: text)
  generalize firstWord sep (b :: text) = w at happ hne hw ⊢
  cases hbehind : behindWord sep (b :: text) with
  | nil =>
    rw [hbehind, List.append_nil] at happ
    rw [← happ, words_single hw hne, words_nil]
  | cons c rest =>
    have hc := behindWord_head hbehind
    rw [hbehind] at happ
    rw [← happ, words_word_sep hw hne hc, words_sep hc]

end EzpFirmware.Lib
