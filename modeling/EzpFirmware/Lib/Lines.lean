import Mathlib.Data.List.Basic
import Mathlib.Data.List.TakeWhile

/-! # Reading a text line by line into a fixed buffer

A reader with room for `k` elements stops after an end of line or when the room
is used up, and goes on there the next time. Lines that fit come out whole; a
longer line comes out in pieces.
-/
namespace EzpFirmware.Lib

variable {α : Type*} [DecidableEq α] (eol : α) (k : ℕ)

/-- The pieces, with what has been read of the current one. -/
def piecesFrom : List α → List α → List (List α)
  | acc, [] => if acc.isEmpty then [] else [acc]
  | acc, b :: bs =>
    if b = eol ∨ acc.length + 1 = k then (acc ++ [b]) :: piecesFrom [] bs
    else piecesFrom (acc ++ [b]) bs

/-- What repeated reads give until the text ends. -/
def pieces (text : List α) : List (List α) := piecesFrom eol k [] text

variable {eol : α} {k : ℕ} {acc l rest : List α}

@[simp] theorem pieces_nil : pieces eol k [] = [] := rfl

/-- The end of a line ends a piece. -/
theorem piecesFrom_line (acc l rest : List α) :
    piecesFrom eol k acc (l ++ eol :: rest) =
      piecesFrom eol k acc (l ++ [eol]) ++ pieces eol k rest := by
  induction l generalizing acc with
  | nil => simp [piecesFrom, pieces]
  | cons b l ih =>
    rw [List.cons_append, List.cons_append, piecesFrom, piecesFrom]
    split
    · rw [ih, List.cons_append]
    · exact ih _

theorem pieces_line (l rest : List α) :
    pieces eol k (l ++ eol :: rest) = pieces eol k (l ++ [eol]) ++ pieces eol k rest :=
  piecesFrom_line [] l rest

/-- A text of whole lines is read line by line. -/
theorem pieces_lines (ls : List (List α)) :
    pieces eol k (ls.flatMap (· ++ [eol])) = ls.flatMap fun l => pieces eol k (l ++ [eol]) := by
  induction ls with
  | nil => rfl
  | cons l ls ih =>
    rw [List.flatMap_cons, List.flatMap_cons, ← ih, ← pieces_line, List.append_assoc,
      List.singleton_append]

/-- The first piece of a line is used up by the room. -/
theorem piecesFrom_full (hl : eol ∉ l) (hacc : acc.length < k) (hk : k ≤ acc.length + l.length) :
    piecesFrom eol k acc (l ++ rest) =
      (acc ++ l.take (k - acc.length)) :: pieces eol k (l.drop (k - acc.length) ++ rest) := by
  induction l generalizing acc with
  | nil =>
    rw [List.length_nil] at hk
    omega
  | cons b l ih =>
    rw [List.mem_cons, not_or] at hl
    rw [List.length_cons] at hk
    rw [List.cons_append, piecesFrom]
    by_cases hlast : acc.length + 1 = k
    · have hone : k - acc.length = 1 := by omega
      rw [if_pos (.inr hlast), hone]
      rfl
    · have hstep : k - acc.length = k - (acc ++ [b]).length + 1 := by
        rw [List.length_append, List.length_singleton]
        omega
      rw [if_neg (not_or.mpr ⟨fun h => hl.1 h.symm, hlast⟩), ih hl.2 (by simp; omega)
        (by simp; omega), hstep]
      simp

/-- A line that fits is one piece. -/
theorem piecesFrom_short (hl : eol ∉ l) (hk : acc.length + l.length < k) :
    piecesFrom eol k acc (l ++ [eol]) = [acc ++ l ++ [eol]] := by
  induction l generalizing acc with
  | nil => simp [piecesFrom]
  | cons b l ih =>
    rw [List.mem_cons, not_or] at hl
    rw [List.length_cons] at hk
    have hmore : ¬ (b = eol ∨ acc.length + 1 = k) := by
      rintro (h | h)
      · exact hl.1 h.symm
      · omega
    rw [List.cons_append, piecesFrom, if_neg hmore, ih hl.2 (by simp; omega)]
    simp

theorem pieces_short (hl : eol ∉ l) (hk : l.length < k) :
    pieces eol k (l ++ [eol]) = [l ++ [eol]] := by
  rw [pieces, piecesFrom_short hl (by simpa using hk), List.nil_append]

theorem pieces_full (hl : eol ∉ l) (hpos : 0 < k) (hk : k ≤ l.length) (rest : List α) :
    pieces eol k (l ++ rest) = l.take k :: pieces eol k (l.drop k ++ rest) := by
  rw [pieces, piecesFrom_full hl (by simpa using hpos) (by simpa using hk)]
  simp

/-- No piece is longer than the room. -/
theorem piecesFrom_length (text : List α) (hacc : acc.length < k) :
    ∀ c ∈ piecesFrom eol k acc text, c.length ≤ k := by
  induction text generalizing acc with
  | nil =>
    intro c hc
    rw [piecesFrom] at hc
    split at hc
    · cases hc
    · rw [List.mem_singleton.mp hc]
      omega
  | cons b bs ih =>
    intro c hc
    rw [piecesFrom] at hc
    split at hc
    · cases List.mem_cons.mp hc with
      | inl h =>
        rw [h, List.length_append, List.length_singleton]
        omega
      | inr h => exact ih (show ([] : List α).length < k by rw [List.length_nil]; omega) c h
    · next hmore =>
      rw [not_or] at hmore
      exact ih (by rw [List.length_append, List.length_singleton]; omega) c hc

theorem pieces_length (hpos : 0 < k) {text c : List α} (hc : c ∈ pieces eol k text) :
    c.length ≤ k :=
  piecesFrom_length text (by simpa using hpos) c hc

/-- A piece holds elements of the text. -/
theorem mem_of_mem_piecesFrom {text acc c : List α} {a : α} (hc : c ∈ piecesFrom eol k acc text)
    (ha : a ∈ c) : a ∈ acc ∨ a ∈ text := by
  induction text generalizing acc with
  | nil =>
    rw [piecesFrom] at hc
    split at hc
    · cases hc
    · exact .inl (List.mem_singleton.mp hc ▸ ha)
  | cons b bs ih =>
    rw [piecesFrom] at hc
    have hsplit : a ∈ acc ++ [b] → a ∈ acc ∨ a ∈ b :: bs := by
      intro h
      rcases List.mem_append.mp h with h | h
      · exact .inl h
      · exact .inr (List.mem_singleton.mp h ▸ List.mem_cons_self)
    split at hc
    · rcases List.mem_cons.mp hc with rfl | hc
      · exact hsplit ha
      · exact .inr (List.mem_cons_of_mem _ ((ih hc).resolve_left List.not_mem_nil))
    · rcases ih hc with h | h
      · exact hsplit h
      · exact .inr (List.mem_cons_of_mem _ h)

theorem mem_of_mem_pieces {text c : List α} {a : α} (hc : c ∈ pieces eol k text) (ha : a ∈ c) :
    a ∈ text :=
  (mem_of_mem_piecesFrom hc ha).resolve_left List.not_mem_nil

/-- The pieces make up the text. -/
theorem flatten_piecesFrom (acc text : List α) :
    (piecesFrom eol k acc text).flatten = acc ++ text := by
  induction text generalizing acc with
  | nil =>
    rw [piecesFrom]
    split
    · rename_i h
      rw [List.isEmpty_iff.mp h]
      rfl
    · simp
  | cons b bs ih =>
    rw [piecesFrom]
    split
    · rw [List.flatten_cons, ih]
      simp
    · rw [ih]
      simp

theorem infix_of_mem_pieces {text c : List α} (hc : c ∈ pieces eol k text) : c <:+: text := by
  have hflat : (pieces eol k text).flatten = text := flatten_piecesFrom [] text
  obtain ⟨before, behind, hsplit⟩ := List.append_of_mem hc
  refine ⟨before.flatten, behind.flatten, ?_⟩
  rw [hsplit, List.flatten_append, List.flatten_cons, ← List.append_assoc] at hflat
  exact hflat

/-- A non-empty text has a first piece. -/
theorem pieces_ne_nil {text : List α} (h : text ≠ []) : pieces eol k text ≠ [] := by
  have hacc (text : List α) : ∀ acc : List α, acc ≠ [] → piecesFrom eol k acc text ≠ [] := by
    induction text with
    | nil =>
      intro acc ha
      simp [piecesFrom, ha]
    | cons b bs ih =>
      intro acc ha
      rw [piecesFrom]
      split
      · exact List.cons_ne_nil _ _
      · exact ih _ (by simp)
  cases text with
  | nil => exact absurd rfl h
  | cons b bs =>
    rw [pieces, piecesFrom]
    split
    · exact List.cons_ne_nil _ _
    · exact hacc bs _ (by simp)

end EzpFirmware.Lib
