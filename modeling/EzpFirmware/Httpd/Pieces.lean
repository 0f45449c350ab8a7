import EzpFirmware.Httpd.Escapes
import EzpFirmware.KernelNvram.Image

/-! # The pieces of a query

The separators of a query become terminators, and each piece between them is
decoded where it is. An escape moves the rest of its piece down by two bytes and
leaves zeros behind, so that only the first escape of a piece can reach the text
behind it.
-/
namespace EzpFirmware.Httpd
open Lib

/-! ## Pieces and what they stand for -/

/-- Whether a byte is a separator of assignments. -/
def isSeparator (b : UInt8) : Bool := b = AMP ∨ b = SEMICOLON

/-- The texts between the separators. -/
def pieces (query : CStr) : List (List UInt8) := query.val.splitOnP isSeparator

/-- The memory of some pieces, each with its terminator. -/
def pieceMem (ps : List (List UInt8)) : List UInt8 := ps.flatMap (· ++ [0])

/-- What is behind the first percent sign of a piece. -/
def behindPercent : List UInt8 → Option (List UInt8)
  | [] => none
  | b :: s => if b = PERCENT then some s else behindPercent s

section
variable (L : Libc)

/-- What a piece is decoded to by itself. The first byte is what `c` holds before. -/
def decode : UInt8 → List UInt8 → List UInt8
  | _, [] => []
  | c, b :: s =>
    if b = PERCENT then
      let c := (L.sscanf (CStr.read s)).getD c
      c :: match s with
        | _ :: _ :: s => decode c s
        | _ => []
    else (if b = PLUS then SPACE else b) :: decode c s

/-- The first escape of a piece is a number, and it has two bytes or nothing is behind the piece. -/
def WholeIn (p behind : List UInt8) : Prop :=
  ∀ s, behindPercent p = some s →
    (L.sscanf (CStr.read s)).isSome = true ∧ (2 ≤ s.length ∨ behind.headD 0 = 0)

end

/-! ## Separators -/

theorem cutSeparators_pieces (query : CStr) :
    cutSeparators query.val ++ [0] = pieceMem (pieces query) := by
  rw [pieces]
  induction query.val with
  | nil => rfl
  | cons b s ih =>
    have hne := List.splitOnP_ne_nil isSeparator s
    rw [List.splitOnP_cons_eq_if_modifyHead]
    by_cases hb : isSeparator b = true
    · have hcut : b = AMP ∨ b = SEMICOLON := of_decide_eq_true hb
      rw [if_pos hb, cutSeparators, List.map_cons, if_pos hcut, List.cons_append]
      exact congrArg ((0 : UInt8) :: ·) ih
    · have hcut : ¬ (b = AMP ∨ b = SEMICOLON) := fun h => hb (decide_eq_true h)
      rw [if_neg hb, cutSeparators, List.map_cons, if_neg hcut, List.cons_append]
      cases hsplit : s.splitOnP isSeparator with
      | nil => exact absurd hsplit hne
      | cons p ps =>
        rw [hsplit] at ih
        exact congrArg (b :: ·) ih

theorem pieceMem_cons (p : List UInt8) (ps : List (List UInt8)) :
    pieceMem (p :: ps) = p ++ 0 :: pieceMem ps := by
  rw [pieceMem, List.flatMap_cons, List.append_assoc]
  rfl

theorem pieceMem_append (ps qs : List (List UInt8)) :
    pieceMem (ps ++ qs) = pieceMem ps ++ pieceMem qs := List.flatMap_append

theorem mem_of_mem_splitOnP {q : UInt8 → Bool} {s p : List UInt8} {b : UInt8}
    (hp : p ∈ s.splitOnP q) (hb : b ∈ p) : b ∈ s ∧ q b = false := by
  induction s generalizing p with
  | nil =>
    rw [List.splitOnP_nil, List.mem_singleton] at hp
    subst hp
    cases hb
  | cons a s ih =>
    rw [List.splitOnP_cons_eq_if_modifyHead] at hp
    obtain ⟨r, rs, hsplit⟩ := List.exists_cons_of_ne_nil (List.splitOnP_ne_nil q s)
    rw [hsplit] at hp ih
    split_ifs at hp with ha
    · rcases List.mem_cons.mp hp with rfl | hp
      · cases hb
      · exact (ih hp hb).imp_left (List.mem_cons_of_mem a)
    · rcases List.mem_cons.mp hp with rfl | hp
      · rcases List.mem_cons.mp hb with rfl | hb
        · exact ⟨List.mem_cons_self, Bool.eq_false_iff.mpr ha⟩
        · exact (ih List.mem_cons_self hb).imp_left (List.mem_cons_of_mem a)
      · exact (ih (List.mem_cons_of_mem r hp) hb).imp_left (List.mem_cons_of_mem a)

theorem notMem_pieces {query : CStr} {p : List UInt8} (h : p ∈ pieces query) : (0 : UInt8) ∉ p :=
  fun hzero => query.property (mem_of_mem_splitOnP h hzero).1

/-- A piece has no further pieces. -/
theorem pieces_alone {query : CStr} {p : List UInt8} (h : p ∈ pieces query) :
    pieces (CStr.read p) = [p] := by
  rw [pieces, CStr.read_of_free (notMem_pieces h)]
  exact List.splitOnP_eq_singleton fun b hb => (mem_of_mem_splitOnP h hb).2

theorem length_pieces (query : CStr) :
    (pieces query).length = query.val.countP (fun b => b = AMP ∨ b = SEMICOLON) + 1 := by
  rw [pieces]
  induction query.val with
  | nil => rfl
  | cons b s ih =>
    rw [List.splitOnP_cons_eq_if_modifyHead, List.countP_cons]
    change (if (decide (b = AMP ∨ b = SEMICOLON) : Bool) = true then _ else _ : List _).length = _
    split_ifs
    · rw [List.length_cons, ih]
    · rw [List.length_modifyHead, ih]

/-! ## Decoding a piece where it is -/

section
variable {L : Libc}

theorem decode_percent (c : UInt8) (s : List UInt8) :
    decode L c (PERCENT :: s) = (L.sscanf (CStr.read s)).getD c ::
      decode L ((L.sscanf (CStr.read s)).getD c) (s.drop 2) := by
  rcases s with _ | ⟨x, _ | ⟨y, s⟩⟩ <;> rfl

theorem decode_plain {b : UInt8} (hb : b ≠ PERCENT) (c : UInt8) (s : List UInt8) :
    decode L c (b :: s) = (if b = PLUS then SPACE else b) :: decode L c s := by
  rw [decode, if_neg hb]

/-- Moving a text down by two bytes, when nothing but its own end is met there. -/
theorem shift_text {s x : List UInt8} (hx : (CStr.read ((s ++ x).drop 2)).val = s.drop 2) :
    strncpy (s ++ x) ((s ++ x).drop 2) (s.length + 1) =
      s.drop 2 ++ List.replicate (s.length + 1 - (s.drop 2).length) 0 ++ x.drop 1 := by
  have hshort : (s.drop 2).length ≤ s.length + 1 := by
    rw [List.length_drop]
    omega
  have hdrop : (s ++ x).drop (s.length + 1) = x.drop 1 := by
    rw [← List.drop_drop, List.drop_left]
  rw [strncpy, hx, List.take_of_length_le hshort, hdrop]

theorem read_len {s : List UInt8} (h : (0 : UInt8) ∉ s) : (CStr.read s).len = s.length := by
  rw [CStr.read_of_free h]
  rfl

theorem read_zeros {s : List UInt8} (h : (0 : UInt8) ∉ s) (k : ℕ) (rest : List UInt8) :
    CStr.read (s ++ List.replicate (k + 1) 0 ++ rest) = CStr.read s := by
  rw [List.replicate_succ, List.append_assoc, List.cons_append, read_append_zero h,
    CStr.read_of_free h]

theorem read_drop_two {s : List UInt8} (h : (0 : UInt8) ∉ s) (k : ℕ) (rest : List UInt8) :
    (CStr.read ((s ++ List.replicate (k + 3) 0 ++ rest).drop 2)).val = s.drop 2 := by
  have hfree : (0 : UInt8) ∉ s.drop 2 := fun hmem => h (List.mem_of_mem_drop hmem)
  rw [List.append_assoc, List.drop_append, List.drop_append_of_le_length (by simp; omega),
    List.drop_replicate]
  obtain ⟨j, hj⟩ : ∃ j, k + 3 - (2 - s.length) = j + 1 := ⟨k + 2 - (2 - s.length), by omega⟩
  rw [hj, ← List.append_assoc, read_zeros hfree, CStr.read_of_free hfree]

theorem read_drop_long {s : List UInt8} (h : (0 : UInt8) ∉ s) (hlen : 2 ≤ s.length)
    (x : List UInt8) : (CStr.read ((s ++ 0 :: x).drop 2)).val = s.drop 2 := by
  have hfree : (0 : UInt8) ∉ s.drop 2 := fun hmem => h (List.mem_of_mem_drop hmem)
  rw [List.drop_append_of_le_length hlen, read_append_zero hfree]

/-- Zeros behind a piece keep its escapes from the text behind them. -/
theorem unescape_gap {w : List UInt8} (h0 : (0 : UInt8) ∉ w) (c : UInt8) {n : ℕ}
    (hn : w.length ≤ n) (k : ℕ) (rest : List UInt8) :
    ∃ z, unescape L n c (w ++ List.replicate (k + 3) 0 ++ rest) =
        decode L c w ++ List.replicate (z + 1) 0 ++ rest ∧
      (decode L c w).length + (z + 1) = w.length + (k + 3) := by
  induction hlen : w.length using Nat.strong_induction_on generalizing w c n k with
  | _ m ih =>
    cases w with
    | nil =>
      refine ⟨k + 2, ?_, by rw [← hlen]; rfl⟩
      cases n <;> rfl
    | cons b s =>
      obtain ⟨n, rfl⟩ := Nat.exists_eq_succ_of_ne_zero (show n ≠ 0 by rw [List.length_cons] at hn; omega)
      rw [List.mem_cons, not_or] at h0
      rw [List.length_cons] at hn hlen
      by_cases hb : b = PERCENT
      · subst hb
        have hdrop : (s.drop 2).length ≤ s.length := by
          rw [List.length_drop]
          omega
        obtain ⟨z, hrun, hsize⟩ := ih (s.drop 2).length (by omega)
          (w := s.drop 2) (fun h => h0.2 (List.mem_of_mem_drop h))
          ((L.sscanf (CStr.read s)).getD c) (n := n) (by omega) (k + (s.length - (s.drop 2).length))
          rfl
        refine ⟨z, ?_, ?_⟩
        · have hgap : s.length + 1 - (s.drop 2).length + (k + 2) =
              k + (s.length - (s.drop 2).length) + 3 := by
            omega
          have hmove := shift_text (s := s) (x := List.replicate (k + 3) 0 ++ rest)
            (by rw [← List.append_assoc]; exact read_drop_two h0.2 k rest)
          have hone : (List.replicate (k + 3) (0 : UInt8) ++ rest).drop 1 =
              List.replicate (k + 2) 0 ++ rest := rfl
          rw [hone, ← List.append_assoc, ← List.append_assoc, List.append_assoc (s.drop 2),
            List.replicate_append_replicate, hgap] at hmove
          rw [List.cons_append, List.cons_append, unescape_escape, decode_percent, read_zeros h0.2,
            read_len h0.2, hmove, hrun]
          rfl
        · rw [decode_percent, List.length_cons]
          omega
      · obtain ⟨z, hrun, hsize⟩ := ih s.length (by omega) h0.2 c (n := n) (by omega) k rfl
        refine ⟨z, ?_, ?_⟩
        · rw [List.cons_append, List.cons_append, unescape_plain (Ne.symm h0.1) hb, hrun,
            decode_plain hb]
          rfl
        · rw [decode_plain hb, List.length_cons]
          omega

/-- `+` stands for a space. -/
def plainByte (b : UInt8) : UInt8 := if b = PLUS then SPACE else b

/-- What is decoded in front of the first escape. -/
def plainFront (w : List UInt8) : List UInt8 := (w.takeWhile (· ≠ PERCENT)).map plainByte

theorem plainFront_cons {b : UInt8} (hb : b ≠ PERCENT) (s : List UInt8) :
    plainFront (b :: s) = plainByte b :: plainFront s := by
  rw [plainFront, List.takeWhile_cons_of_pos (by simpa using hb)]
  rfl

theorem plainFront_length {w : List UInt8} (h : behindPercent w = none) :
    (plainFront w).length = w.length := by
  induction w with
  | nil => rfl
  | cons b w ih =>
    rw [behindPercent] at h
    split_ifs at h with hb
    rw [plainFront_cons hb, List.length_cons, List.length_cons, ih h]

theorem behindPercent_cons {b : UInt8} (hb : b ≠ PERCENT) (s : List UInt8) :
    behindPercent (b :: s) = behindPercent s := if_neg hb

theorem behindPercent_suffix {w s : List UInt8} (h : behindPercent w = some s) : s <:+ w := by
  induction w with
  | nil => cases h
  | cons b w ih =>
    rw [behindPercent] at h
    split_ifs at h
    · cases Option.some.inj h
      exact List.suffix_cons b s
    · exact (ih h).trans (List.suffix_cons b w)

theorem unescape_zero (n : ℕ) (c : UInt8) (rest : List UInt8) :
    unescape L n c (0 :: rest) = 0 :: rest := by
  cases n <;> rfl

section
variable {w s rest : List UInt8} {n : ℕ}

/-- A piece without an escape. -/
theorem unescape_unescaped (h0 : (0 : UInt8) ∉ w) (hw : behindPercent w = none) (c : UInt8)
    (hn : w.length ≤ n) :
    unescape L n c (w ++ 0 :: rest) = plainFront w ++ 0 :: rest ∧ decode L c w = plainFront w := by
  induction w generalizing n with
  | nil => exact ⟨unescape_zero n c rest, rfl⟩
  | cons b s ih =>
    rw [List.mem_cons, not_or] at h0
    rw [List.length_cons] at hn
    by_cases hb : b = PERCENT
    · rw [hb, behindPercent, if_pos rfl] at hw
      cases hw
    · obtain ⟨n, rfl⟩ := Nat.exists_eq_succ_of_ne_zero (show n ≠ 0 by omega)
      rw [behindPercent_cons hb] at hw
      obtain ⟨hrun, hdec⟩ := ih h0.2 hw (n := n) (by omega)
      rw [List.cons_append, unescape_plain (Ne.symm h0.1) hb, decode_plain hb, hrun, hdec,
        plainFront_cons hb]
      exact ⟨rfl, rfl⟩

/-- The first escape of a piece. -/
theorem unescape_first (h0 : (0 : UInt8) ∉ w) (hw : behindPercent w = some s) (c : UInt8)
    (hn : w.length ≤ n) (x : List UInt8) :
    w.length = (plainFront w).length + 1 + s.length ∧
      decode L c w = plainFront w ++ (L.sscanf (CStr.read s)).getD c ::
        decode L ((L.sscanf (CStr.read s)).getD c) (s.drop 2) ∧
      unescape L n c (w ++ 0 :: x) = plainFront w ++ (L.sscanf (CStr.read s)).getD c ::
        unescape L (n - (plainFront w).length - 1) ((L.sscanf (CStr.read s)).getD c)
          (strncpy (s ++ 0 :: x) ((s ++ 0 :: x).drop 2) (s.length + 1)) := by
  induction w generalizing n with
  | nil => cases hw
  | cons b w ih =>
    rw [List.mem_cons, not_or] at h0
    rw [List.length_cons] at hn
    obtain ⟨n, rfl⟩ := Nat.exists_eq_succ_of_ne_zero (show n ≠ 0 by omega)
    by_cases hb : b = PERCENT
    · subst hb
      rw [behindPercent, if_pos rfl] at hw
      cases Option.some.inj hw
      have hfront : plainFront (PERCENT :: s) = [] := by
        rw [plainFront, List.takeWhile_cons_of_neg (by simp)]
        rfl
      rw [hfront]
      refine ⟨by rw [List.length_cons, List.length_nil]; omega, decode_percent c _, ?_⟩
      rw [List.cons_append, unescape_escape, read_append_zero h0.2, CStr.read_of_free h0.2]
      rfl
    · rw [behindPercent_cons hb] at hw
      obtain ⟨hlen, hdec, hrun⟩ := ih h0.2 hw (n := n) (by omega)
      have hfuel : n.succ - (plainFront (b :: w)).length - 1 = n - (plainFront w).length - 1 := by
        rw [plainFront_cons hb, List.length_cons]
        omega
      rw [hfuel, List.cons_append, unescape_plain (Ne.symm h0.1) hb, decode_plain hb, hrun, hdec,
        plainFront_cons hb]
      refine ⟨?_, rfl, rfl⟩
      rw [List.length_cons, List.length_cons, hlen]
      omega

/-- A piece whose first escape meets nothing but the end of the piece. -/
theorem unescape_apart (h0 : (0 : UInt8) ∉ w) (c : UInt8) (hn : w.length ≤ n)
    (hroom : ∀ s, behindPercent w = some s →
      (CStr.read ((s ++ 0 :: rest).drop 2)).val = s.drop 2) :
    ∃ z, unescape L n c (w ++ 0 :: rest) = decode L c w ++ List.replicate (z + 1) 0 ++ rest ∧
      (decode L c w).length + (z + 1) = w.length + 1 := by
  cases hw : behindPercent w with
  | none =>
    obtain ⟨hrun, hdec⟩ := @unescape_unescaped L _ rest _ h0 hw c hn
    refine ⟨0, ?_, ?_⟩
    · rw [hrun, hdec, List.append_assoc]
      rfl
    · rw [hdec, plainFront_length hw]
  | some s =>
    obtain ⟨hlen, hdec, hrun⟩ := unescape_first (L := L) h0 hw c hn rest
    have hs : (0 : UInt8) ∉ s.drop 2 := fun hmem =>
      h0 ((behindPercent_suffix hw).subset (List.mem_of_mem_drop hmem))
    have hmove := shift_text (hroom s hw)
    rw [hrun, hdec, hmove]
    have hone : (0 :: rest).drop 1 = rest := rfl
    rw [hone]
    by_cases hlong : 2 ≤ s.length
    · have hthree : s.length + 1 - (s.drop 2).length = 0 + 3 := by
        rw [List.length_drop]
        omega
      obtain ⟨z, hgap, hsize⟩ := unescape_gap (L := L) hs ((L.sscanf (CStr.read s)).getD c)
        (n := n - (plainFront w).length - 1) (by rw [List.length_drop]; omega) 0 rest
      refine ⟨z, ?_, ?_⟩
      · rw [hthree, hgap]
        simp only [List.append_assoc, List.cons_append]
      · rw [List.length_drop] at hsize
        rw [List.length_append, List.length_cons]
        omega
    · have hnil : s.drop 2 = [] := List.drop_eq_nil_of_le (by omega)
      refine ⟨s.length, ?_, ?_⟩
      · rw [hnil, List.length_nil, Nat.sub_zero, List.nil_append, List.replicate_succ,
          List.cons_append, unescape_zero]
        simp [decode]
      · rw [hnil, decode, List.length_append, List.length_singleton]
        omega

end

/-- An empty text is no number. -/
def Libc.EmptyFails (L : Libc) : Prop := L.sscanf CStr.empty = none

theorem libc_emptyFails : libc.EmptyFails := rfl

theorem WholeIn.apart (hL : L.EmptyFails) {p rest s : List UInt8} (h : WholeIn L p rest)
    (h0 : (0 : UInt8) ∉ p) (hs : behindPercent p = some s) :
    (CStr.read ((s ++ 0 :: rest).drop 2)).val = s.drop 2 := by
  have hs0 : (0 : UInt8) ∉ s := fun hmem => h0 ((behindPercent_suffix hs).subset hmem)
  obtain ⟨hnum, hroom⟩ := h s hs
  rcases s with _ | ⟨x, _ | ⟨y, s⟩⟩
  · rw [show CStr.read [] = CStr.empty from rfl, hL] at hnum
    cases hnum
  · have hhead := hroom.resolve_left (by simp)
    cases rest with
    | nil => rfl
    | cons b rest =>
      obtain rfl : b = 0 := hhead
      rfl
  · exact read_drop_long hs0 (by simp) rest

/-- What such a piece is decoded to does not depend on what `c` holds before. -/
theorem decode_congr {p : List UInt8} (h0 : (0 : UInt8) ∉ p)
    (h : ∀ s, behindPercent p = some s → (L.sscanf (CStr.read s)).isSome = true) (c d : UInt8) :
    decode L c p = decode L d p := by
  cases hp : behindPercent p with
  | none =>
    rw [(@unescape_unescaped L _ [] _ h0 hp c le_rfl).2,
      (@unescape_unescaped L _ [] _ h0 hp d le_rfl).2]
  | some s =>
    obtain ⟨a, ha⟩ := Option.isSome_iff_exists.mp (h s hp)
    rw [(unescape_first (L := L) h0 hp c le_rfl []).2.1,
      (unescape_first (L := L) h0 hp d le_rfl []).2.1, ha]
    rfl

/-- Such a piece is decoded by itself. -/
theorem unescape_whole (hL : L.EmptyFails) {p rest : List UInt8} (h : WholeIn L p rest)
    (h0 : (0 : UInt8) ∉ p) (c d : UInt8) {n : ℕ} (hn : p.length ≤ n) :
    ∃ z, unescape L n c (p ++ 0 :: rest) = decode L d p ++ List.replicate (z + 1) 0 ++ rest ∧
      (decode L d p).length + (z + 1) = p.length + 1 := by
  rw [decode_congr h0 (fun s hs => (h s hs).1) d c]
  exact unescape_apart h0 c hn fun s hs => h.apart hL h0 hs

end

end EzpFirmware.Httpd
