import Mathlib.Data.List.Count
import Mathlib.Data.List.Infix

/-! # Escaped texts

Each special element of a text gets a mark in front. If the mark is special
itself, taking away one mark in front of each marked element gives the text back.
-/
namespace EzpFirmware.Lib

section
variable {α : Type*} (mark : α) (special : α → Bool)

/-- A mark in front of every special element. -/
def escape : List α → List α
  | [] => []
  | a :: s => if special a then mark :: a :: escape s else a :: escape s

/-- A text without the mark in front of each marked element. -/
def unescape [DecidableEq α] : List α → List α
  | [] => []
  | [a] => [a]
  | a :: b :: s => if a = mark then b :: unescape s else a :: unescape (b :: s)

variable {mark special}

theorem escape_cons (a : α) (s : List α) : escape mark special (a :: s) =
    if special a then mark :: a :: escape mark special s else a :: escape mark special s := rfl

theorem unescape_marked [DecidableEq α] (a : α) (s : List α) :
    unescape mark (mark :: a :: s) = a :: unescape mark s := by
  rw [unescape, if_pos rfl]

theorem unescape_plain [DecidableEq α] {a : α} (ha : a ≠ mark) (s : List α) :
    unescape mark (a :: s) = a :: unescape mark s := by
  cases s <;> simp [unescape, ha]

theorem unescape_escape [DecidableEq α] (hmark : special mark = true) (s : List α) :
    unescape mark (escape mark special s) = s := by
  induction s with
  | nil => rfl
  | cons a s ih =>
    rw [escape_cons]
    split_ifs with ha
    · rw [unescape_marked, ih]
    · have hne : a ≠ mark := fun h => ha (h ▸ hmark)
      rw [unescape_plain hne, ih]

theorem escape_length (s : List α) :
    (escape mark special s).length = s.length + s.countP special := by
  induction s with
  | nil => rfl
  | cons a s ih =>
    rw [escape_cons, List.countP_cons]
    split_ifs with ha <;> simp only [List.length_cons, ih] <;> omega

/-- Escaping adds nothing but marks. -/
theorem mem_escape {a : α} {s : List α} (h : a ∈ escape mark special s) : a = mark ∨ a ∈ s := by
  induction s with
  | nil => exact .inr h
  | cons b s ih =>
    rw [escape_cons] at h
    split_ifs at h <;> simp only [List.mem_cons] at h ⊢ <;> tauto

end

/-! ## Characters spelled by words

Some characters of a text are spelled by a word that starts with a mark, and the
mark itself is not spelled. Reading replaces every word by its character, so that
a text is read back exactly if it has none of the words to begin with.
-/

variable {α : Type*}

/-- Characters and the words that spell them. -/
structure Entities (α : Type*) where
  table : List (α × List α)
  mark : α
  word : ∀ e ∈ table, ∃ w ≠ [], e.2 = mark :: w ∧ mark ∉ w
  /-- No word has a character that is spelled. -/
  free : ∀ e ∈ table, ∀ e' ∈ table, e.1 ∉ e'.2
  apart : ∀ e ∈ table, ∀ e' ∈ table, e.2 <+: e'.2 → e = e'

namespace Entities
variable [DecidableEq α] (E : Entities α)

/-- How a character is written. -/
def spell (c : α) : List α :=
  match E.table.find? fun e => e.1 = c with
  | some e => e.2
  | none => [c]

def encode (s : List α) : List α := s.flatMap E.spell

@[simp] theorem encode_nil : E.encode [] = [] := rfl

/-- The word that a text starts with. -/
def leading (s : List α) : Option (α × List α) := E.table.find? fun e => e.2.isPrefixOf s

/-- A text with a character for every word. -/
def decode : List α → List α
  | [] => []
  | c :: s =>
    match E.leading (c :: s) with
    | some e => e.1 :: decode (s.drop (e.2.length - 1))
    | none => c :: decode s
termination_by s => s.length
decreasing_by all_goals simp; try omega

/-- The words that a text has. -/
def HasWord (s : List α) : Prop := ∃ e ∈ E.table, e.2 <:+: s

instance (s : List α) : Decidable (E.HasWord s) :=
  inferInstanceAs (Decidable (∃ e ∈ E.table, e.2 <:+: s))

variable {E} {c : α} {s t w : List α} {e : α × List α}

theorem spell_plain (h : ∀ e ∈ E.table, e.1 ≠ c) : E.spell c = [c] := by
  have hnone : E.table.find? (fun e => e.1 = c) = none := by
    rw [List.find?_eq_none]
    exact fun e he => by simpa using h e he
  rw [spell, hnone]

theorem spell_cases (E : Entities α) (c : α) :
    (E.spell c = [c] ∧ ∀ e ∈ E.table, e.1 ≠ c) ∨ ∃ e ∈ E.table, e.1 = c ∧ E.spell c = e.2 := by
  cases hfind : E.table.find? fun e => e.1 = c with
  | none =>
    have h : ∀ e ∈ E.table, e.1 ≠ c := fun e he => by
      simpa using List.find?_eq_none.mp hfind e he
    exact .inl ⟨spell_plain h, h⟩
  | some e =>
    refine .inr ⟨e, List.mem_of_find?_eq_some hfind, by simpa using List.find?_some hfind, ?_⟩
    rw [spell, hfind]

theorem spell_length_pos (E : Entities α) (c : α) : 0 < (E.spell c).length := by
  rcases E.spell_cases c with ⟨h, -⟩ | ⟨e, he, -, h⟩
  · rw [h]
    exact Nat.one_pos
  · obtain ⟨w, -, hword, -⟩ := E.word e he
    rw [h, hword, List.length_cons]
    exact Nat.succ_pos _

theorem encode_cons (E : Entities α) (c : α) (s : List α) :
    E.encode (c :: s) = E.spell c ++ E.encode s := List.flatMap_cons

/-- The characters of a word are not spelled. -/
theorem encode_word (he : e ∈ E.table) (hs : ∀ c ∈ s, c ∈ e.2) : E.encode s = s := by
  induction s with
  | nil => rfl
  | cons c s ih =>
    have hplain : ∀ e' ∈ E.table, e'.1 ≠ c := fun e' he' h =>
      E.free e' he' e he (h ▸ hs c List.mem_cons_self)
    rw [encode_cons, spell_plain hplain, ih fun d hd => hs d (List.mem_cons_of_mem c hd)]
    rfl

/-! ## Reading -/

theorem leading_some (h : E.leading s = some e) : e ∈ E.table ∧ e.2 <+: s := by
  rw [leading] at h
  have hpre : e.2.isPrefixOf s = true := by simpa using List.find?_some h
  exact ⟨List.mem_of_find?_eq_some h, List.isPrefixOf_iff_prefix.mp hpre⟩

theorem leading_none (h : E.leading s = none) : ∀ e ∈ E.table, ¬ e.2 <+: s := fun e he hpre =>
  List.find?_eq_none.mp h e he (List.isPrefixOf_iff_prefix.mpr hpre)

/-- Only one word stands in front of a text. -/
theorem leading_word (he : e ∈ E.table) (t : List α) : E.leading (e.2 ++ t) = some e := by
  cases hlead : E.leading (e.2 ++ t) with
  | none => exact absurd (List.prefix_append e.2 t) (leading_none hlead e he)
  | some e' =>
    obtain ⟨he', hpre⟩ := leading_some hlead
    rcases List.prefix_or_prefix_of_prefix hpre (List.prefix_append e.2 t) with h | h
    · rw [E.apart e' he' e he h]
    · rw [E.apart e he e' he' h]

theorem decode_word (he : e ∈ E.table) (t : List α) :
    E.decode (e.2 ++ t) = e.1 :: E.decode t := by
  obtain ⟨w, -, hword, -⟩ := E.word e he
  have hlead := leading_word he t
  have hdrop : (w ++ t).drop (e.2.length - 1) = t := by
    rw [hword, List.length_cons, Nat.add_sub_cancel, List.drop_left]
  rw [hword, List.cons_append] at hlead ⊢
  rw [decode, hlead]
  dsimp only
  rw [hdrop]

theorem decode_plain (h : E.leading (c :: s) = none) : E.decode (c :: s) = c :: E.decode s := by
  rw [decode, h]

/-- What follows a mark is not changed by spelling. -/
theorem prefix_of_prefix_encode (hw : E.mark ∉ w) (h : w <+: E.encode s) : w <+: s := by
  induction w generalizing s with
  | nil => exact List.nil_prefix
  | cons a w ih =>
    cases s with
    | nil => exact h
    | cons c s =>
      rw [List.mem_cons, not_or] at hw
      rw [encode_cons] at h
      rcases E.spell_cases c with ⟨hspell, -⟩ | ⟨e, he, -, hspell⟩
      · rw [hspell, List.singleton_append, List.cons_prefix_cons] at h
        rw [List.cons_prefix_cons]
        exact ⟨h.1, ih hw.2 h.2⟩
      · obtain ⟨v, -, hword, -⟩ := E.word e he
        rw [hspell, hword, List.cons_append, List.cons_prefix_cons] at h
        exact absurd h.1.symm hw.1

/-- A character in front of what is spelled begins a word only if it did before. -/
theorem leading_encode (c : α) (s : List α) :
    E.leading (c :: E.encode s) = none ∨ ∃ e ∈ E.table, e.2 <+: c :: s := by
  cases hlead : E.leading (c :: E.encode s) with
  | none => exact .inl rfl
  | some e =>
    obtain ⟨he, hpre⟩ := leading_some hlead
    obtain ⟨w, -, hword, hw⟩ := E.word e he
    refine .inr ⟨e, he, ?_⟩
    rw [hword, List.cons_prefix_cons] at hpre ⊢
    exact ⟨hpre.1, prefix_of_prefix_encode hw hpre.2⟩

omit [DecidableEq α] in
theorem HasWord.cons (h : E.HasWord s) : E.HasWord (c :: s) := by
  obtain ⟨e, he, hin⟩ := h
  exact ⟨e, he, hin.trans (List.suffix_cons c s).isInfix⟩

/-- A text without words is read back. -/
theorem decode_encode (h : ¬ E.HasWord s) : E.decode (E.encode s) = s := by
  induction s with
  | nil => rw [encode_nil, decode]
  | cons c s ih =>
    have hrest := ih fun hs => h hs.cons
    rw [encode_cons]
    rcases E.spell_cases c with ⟨hspell, -⟩ | ⟨e, he, rfl, hspell⟩
    · rw [hspell, List.singleton_append]
      rcases leading_encode c s with hnone | ⟨e, he, hpre⟩
      · rw [decode_plain hnone, hrest]
      · exact absurd ⟨e, he, hpre.isInfix⟩ h
    · rw [hspell, decode_word he, hrest]

/-- Reading a text that was written makes it no longer, and shorter where it has a word. -/
theorem decode_encode_length (s : List α) : (E.decode (E.encode s)).length ≤ s.length ∧
    (E.HasWord s → (E.decode (E.encode s)).length < s.length) := by
  induction hn : s.length using Nat.strong_induction_on generalizing s with
  | _ n ih =>
    subst hn
    cases hlead : E.leading s with
    | some e =>
      obtain ⟨he, t, rfl⟩ := leading_some hlead
      obtain ⟨w, hw, hword, -⟩ := E.word e he
      have hpos := List.length_pos_of_ne_nil hw
      have hlen : e.2.length = w.length + 1 := by rw [hword, List.length_cons]
      have hrest := (ih t.length (by rw [List.length_append]; omega) t rfl).1
      have hsplit : E.encode (e.2 ++ t) = e.2 ++ E.encode t := by
        rw [encode, List.flatMap_append, ← encode, encode_word he fun c hc => hc]
        rfl
      rw [hsplit, decode_word he, List.length_cons, List.length_append]
      omega
    | none =>
      cases s with
      | nil =>
        rw [encode_nil, decode]
        refine ⟨le_rfl, fun ⟨e, he, hin⟩ => ?_⟩
        obtain ⟨w, -, hword, -⟩ := E.word e he
        rw [List.infix_nil.mp hin] at hword
        cases hword
      | cons c s =>
        obtain ⟨hle, hlt⟩ := ih s.length (Nat.lt_succ_self _) s rfl
        have htail : E.HasWord (c :: s) → E.HasWord s := by
          rintro ⟨e, he, hin⟩
          rcases List.infix_cons_iff.mp hin with hpre | hin
          · exact absurd hpre (leading_none hlead e he)
          · exact ⟨e, he, hin⟩
        have hone : (E.decode (E.encode (c :: s))).length = (E.decode (E.encode s)).length + 1 := by
          rw [encode_cons]
          rcases E.spell_cases c with ⟨hspell, -⟩ | ⟨e, he, rfl, hspell⟩
          · rw [hspell, List.singleton_append]
            rcases leading_encode c s with hnone | ⟨e, he, hpre⟩
            · rw [decode_plain hnone, List.length_cons]
            · exact absurd hpre (leading_none hlead e he)
          · rw [hspell, decode_word he, List.length_cons]
        rw [hone, List.length_cons]
        exact ⟨Nat.succ_le_succ hle, fun h => Nat.succ_lt_succ (hlt (htail h))⟩

/-- A text is read back exactly if it has none of the words. -/
theorem decode_encode_iff (s : List α) : E.decode (E.encode s) = s ↔ ¬ E.HasWord s := by
  constructor
  · intro hback hword
    have hless := (decode_encode_length s).2 hword
    rw [hback] at hless
    exact lt_irrefl _ hless
  · exact decode_encode

end Entities

end EzpFirmware.Lib
