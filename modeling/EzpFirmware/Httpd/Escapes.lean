import EzpFirmware.Httpd.Forms

/-! # Texts with whole escapes

A text in which every `%` is followed by two hexadecimal digits stands for
another text. The decoder works on such texts piece by piece: what is behind a
piece is moved and padded, but not read.
-/
namespace EzpFirmware.Httpd
open Lib

/-- `sscanf` with `%02x` reads two digits as their number, whatever stands behind them. -/
def Libc.ReadsHex (L : Libc) : Prop :=
  ∀ (s : CStr) (a b x y : UInt8) (rest : List UInt8), s.val = a :: b :: rest →
    hexDigit a = some x → hexDigit b = some y → L.sscanf s = some (x * 16 + y)

theorem libc_readsHex : libc.ReadsHex := by
  intro s a b x y rest hs ha hb
  simp [libc, hs, ha, hb]

/-- The second text is what the first stands for: escapes are whole and none is of a zero. -/
inductive Unescapes : List UInt8 → List UInt8 → Prop where
  | nil : Unescapes [] []
  | plain {b : UInt8} {s t : List UInt8} : b ≠ 0 → b ≠ PERCENT → b ≠ PLUS → Unescapes s t →
      Unescapes (b :: s) (b :: t)
  | plus {s t : List UInt8} : Unescapes s t → Unescapes (PLUS :: s) (SPACE :: t)
  | escape {a b x y : UInt8} {s t : List UInt8} : hexDigit a = some x → hexDigit b = some y →
      x * 16 + y ≠ 0 → Unescapes s t → Unescapes (PERCENT :: a :: b :: s) ((x * 16 + y) :: t)

namespace Unescapes

variable {s s' t t' : List UInt8}

theorem append (h : Unescapes s t) (h' : Unescapes s' t') : Unescapes (s ++ s') (t ++ t') := by
  induction h with
  | nil => exact h'
  | plain hb hp hpl _ ih => exact .plain hb hp hpl ih
  | plus _ ih => exact .plus ih
  | escape ha hb hne _ ih => exact .escape ha hb hne ih

/-- A text without `%`, `+` and zeros stands for itself. -/
theorem of_plain (h : ∀ b ∈ s, b ≠ 0 ∧ b ≠ PERCENT ∧ b ≠ PLUS) : Unescapes s s := by
  induction s with
  | nil => exact .nil
  | cons b s ih =>
    obtain ⟨h0, hp, hpl⟩ := h b (by simp)
    exact .plain h0 hp hpl (ih fun c hc => h c (by simp [hc]))

/-- A text without `%` and `+` stands for nothing else. -/
theorem eq_of_plain (h : Unescapes s t) (hs : PERCENT ∉ s ∧ PLUS ∉ s) : t = s := by
  induction h with
  | nil => rfl
  | plain _ _ _ _ ih =>
    simp only [List.mem_cons, not_or] at hs
    rw [ih ⟨hs.1.2, hs.2.2⟩]
  | plus => simp at hs
  | escape => simp at hs

theorem hexDigit_ne_zero {a x : UInt8} (h : hexDigit a = some x) : a ≠ 0 := by
  rintro rfl
  rw [show hexDigit 0 = none by decide] at h
  cases h

theorem source_plain (h : Unescapes s t) : (0 : UInt8) ∉ s := by
  induction h with
  | nil => simp
  | plain hb _ _ _ ih => simp [ih, Ne.symm hb]
  | plus _ ih => simpa [ih] using show (0 : UInt8) ≠ PLUS by decide
  | escape ha hb _ _ ih =>
    simp [ih, Ne.symm (hexDigit_ne_zero ha), Ne.symm (hexDigit_ne_zero hb), Ne.symm percent_ne]

theorem target_plain (h : Unescapes s t) : (0 : UInt8) ∉ t := by
  induction h with
  | nil => simp
  | plain hb _ _ _ ih => simp [ih, Ne.symm hb]
  | plus _ ih => simpa [ih] using show (0 : UInt8) ≠ SPACE by decide
  | escape _ _ hne _ ih => simp [ih, Ne.symm hne]

end Unescapes

theorem read_append_zero {s : List UInt8} (h : (0 : UInt8) ∉ s) (rest : List UInt8) :
    CStr.read (s ++ 0 :: rest) = ⟨s, h⟩ := by
  simpa [CStr.stored] using CStr.read_stored_append ⟨s, h⟩ rest

/-- The decoder turns a stored text into what it stands for, and moves what is behind it. -/
theorem unescape_unescapes {L : Libc} (hL : L.ReadsHex) {s t : List UInt8} (h : Unescapes s t)
    {n : ℕ} (hn : s.length < n) (c : UInt8) (rest : List UInt8) :
    ∃ rest', unescape L n c (s ++ 0 :: rest) = t ++ 0 :: rest' := by
  induction h generalizing n c rest with
  | nil =>
    obtain ⟨n, rfl⟩ := Nat.exists_eq_add_of_lt hn
    exact ⟨rest, by simp [unescape]⟩
  | @plain b s t hb hp hpl _ ih =>
    obtain ⟨n, rfl⟩ := Nat.exists_eq_add_of_lt hn
    obtain ⟨rest', hr⟩ := ih (n := (b :: s).length + n) (by simp; omega) c rest
    refine ⟨rest', ?_⟩
    rw [List.cons_append, unescape_plain hb hp, if_neg hpl, hr, List.cons_append]
  | @plus s t _ ih =>
    obtain ⟨n, rfl⟩ := Nat.exists_eq_add_of_lt hn
    obtain ⟨rest', hr⟩ := ih (n := (PLUS :: s).length + n) (by simp; omega) c rest
    refine ⟨rest', ?_⟩
    rw [List.cons_append, unescape_plain (by decide) (by decide), if_pos rfl, hr, List.cons_append]
  | @escape a b x y s t ha hb hne hs ih =>
    obtain ⟨n, rfl⟩ := Nat.exists_eq_add_of_lt hn
    -- the text behind the escape is moved down over its two digits
    have hplain : (0 : UInt8) ∉ a :: b :: s := by
      simp [hs.source_plain, Ne.symm (Unescapes.hexDigit_ne_zero ha),
        Ne.symm (Unescapes.hexDigit_ne_zero hb)]
    have hread : CStr.read (a :: b :: s ++ 0 :: rest) = ⟨a :: b :: s, hplain⟩ :=
      read_append_zero hplain rest
    have hread' := read_append_zero hs.source_plain rest
    have hmove : strncpy (a :: b :: s ++ 0 :: rest) ((a :: b :: s ++ 0 :: rest).drop 2)
        ((CStr.read (a :: b :: s ++ 0 :: rest)).len + 1) = s ++ 0 :: 0 :: 0 :: rest := by
      rw [hread, strncpy, show (a :: b :: s ++ 0 :: rest).drop 2 = s ++ 0 :: rest from rfl, hread',
        CStr.len]
      have hrep : (a :: b :: s).length + 1 - s.length = 3 := by
        simp only [List.length_cons]
        omega
      have htake : s.take ((a :: b :: s).length + 1) = s :=
        List.take_of_length_le (by simp only [List.length_cons]; omega)
      have hdrop : (a :: b :: s ++ 0 :: rest).drop ((a :: b :: s).length + 1) = rest := by
        rw [← List.drop_drop, List.drop_left]
        rfl
      simp only [htake, hrep, hdrop]
      simp [List.replicate]
    obtain ⟨rest', hr⟩ := ih (n := (PERCENT :: a :: b :: s).length + n) (by simp; omega)
      (x * 16 + y) (0 :: 0 :: rest)
    refine ⟨rest', ?_⟩
    rw [List.cons_append, unescape_escape, hmove, hread,
      hL ⟨a :: b :: s, hplain⟩ a b x y s rfl ha hb, Option.getD_some, hr, List.cons_append]

end EzpFirmware.Httpd
