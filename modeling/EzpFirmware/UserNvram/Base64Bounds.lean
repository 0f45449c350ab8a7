import EzpFirmware.UserNvram.AttrScans

/-! # What the decoder writes

A group of four characters is refused if its bytes do not fit, but their number
is taken from a counter that every `=` brings down, and at least one byte is
written for a group.
-/
namespace EzpFirmware.UserNvram
open Lib

/-- The characters that are not skipped. -/
def symbols (inp : List UInt8) : List UInt8 := inp.filter fun b => codeOf b ≠ 255

/-- The number of `=` among some characters. -/
def pads (s : List UInt8) : ℕ := s.countP fun b => codeOf b = 254

/-- The number of `=` in the first `k` groups. -/
def padsIn (inp : List UInt8) (k : ℕ) : ℕ := pads ((symbols inp).take (4 * k))

/-- The bytes of the first `k` groups. -/
def bytesIn (inp : List UInt8) : ℕ → ℕ
  | 0 => 0
  | k + 1 => bytesIn inp k + max 1 (3 - padsIn inp (k + 1))

/-- The number of full groups. -/
def groups (inp : List UInt8) : ℕ := (symbols inp).length / 4

/-- Group `k` passes the test of the capacity. -/
def Passes (inp : List UInt8) (capacity k : ℕ) : Prop :=
  padsIn inp (k + 1) ≤ bytesIn inp k + 3 ∧ bytesIn inp k + 3 ≤ capacity + padsIn inp (k + 1)

instance (inp : List UInt8) (capacity k : ℕ) : Decidable (Passes inp capacity k) :=
  inferInstanceAs (Decidable (_ ∧ _))

section
variable {inp rest out s : List UInt8} {capacity k t y : ℕ} {g : ℤ} {a b c d : UInt8}

/-! ## One group -/

theorem decodeLoop_symbols (inp : List UInt8) (t y : ℕ) (g : ℤ) (out : List UInt8) :
    decodeLoop capacity inp t y g out = decodeLoop capacity (symbols inp) t y g out := by
  induction inp generalizing t y g out with
  | nil => rfl
  | cons b inp ih =>
    by_cases hb : codeOf b = 255
    · have hskip : symbols (b :: inp) = symbols inp := by simp [symbols, hb]
      rw [decodeLoop_skip hb, hskip, ih]
    · have hkeep : symbols (b :: inp) = b :: symbols inp := by simp [symbols, hb]
      rw [hkeep]
      by_cases hy : y + 1 = 4
      · obtain rfl : y = 3 := by omega
        rw [decodeLoop_fourth hb, decodeLoop_fourth hb, ih]
      · rw [decodeLoop_symbol hb hy, decodeLoop_symbol hb hy, ih]

theorem pads_four : pads [a, b, c, d] = padOf a + padOf b + padOf c + padOf d := by
  simp [pads, List.countP_cons, padOf]
  omega

/-- A group is refused, or its bytes are written. -/
theorem decodeLoop_group (hsym : ∀ x ∈ [a, b, c, d], codeOf x ≠ 255) :
    ∃ t, decodeLoop capacity (a :: b :: c :: d :: rest) 0 0 g out =
      if out.length + (g - pads [a, b, c, d]) < 0 ∨
          (capacity : ℤ) < out.length + (g - pads [a, b, c, d]) then (.CRYPT_BUFFER_OVERFLOW, out)
      else decodeLoop capacity rest 0 0 (g - pads [a, b, c, d])
        (out ++ groupBytes t (g - pads [a, b, c, d])) := by
  simp only [List.mem_cons, List.not_mem_nil, or_false, forall_eq_or_imp, forall_eq] at hsym
  obtain ⟨ha, hb, hc, hd⟩ := hsym
  have hg : g - padOf a - padOf b - padOf c - padOf d = g - pads [a, b, c, d] := by
    rw [pads_four]
    omega
  rw [decodeLoop_symbol ha (by decide), decodeLoop_symbol hb (by decide),
    decodeLoop_symbol hc (by decide), decodeLoop_fourth hd, hg]
  exact ⟨_, rfl⟩

theorem groupBytes_length (t p : ℕ) : (groupBytes t (3 - p)).length = max 1 (3 - p) := by
  unfold groupBytes
  split_ifs
  · simp
    omega
  · simp
    omega
  · omega
  · simp
    omega

/-- A group stands in front of the ones behind it. -/
theorem drop_group (hk : 4 * (k + 1) ≤ s.length) : ∃ a b c d,
    s.drop (4 * k) = a :: b :: c :: d :: s.drop (4 * (k + 1)) ∧
      s.take (4 * (k + 1)) = s.take (4 * k) ++ [a, b, c, d] := by
  have hdrop : s.drop (4 * (k + 1)) = (s.drop (4 * k)).drop 4 := by
    rw [List.drop_drop, Nat.mul_succ]
  have htake : s.take (4 * (k + 1)) = s.take (4 * k) ++ (s.drop (4 * k)).take 4 := by
    rw [Nat.mul_succ, List.take_add]
  have hlen : 4 ≤ (s.drop (4 * k)).length := by
    rw [List.length_drop]
    omega
  rw [hdrop, htake]
  match s.drop (4 * k), hlen with
  | a :: b :: c :: d :: rest, _ => exact ⟨a, b, c, d, rfl, rfl⟩

theorem symbols_spec (hb : b ∈ symbols inp) : codeOf b ≠ 255 := by
  simpa using (List.mem_filter.mp hb).2

/-- What a group that passes, or does not pass, leads to. -/
theorem decode_group (hk : k < groups inp) (hout : out.length = bytesIn inp k) :
    (¬ Passes inp capacity k → decodeLoop capacity ((symbols inp).drop (4 * k)) 0 0
      (3 - padsIn inp k) out = (.CRYPT_BUFFER_OVERFLOW, out)) ∧
    (Passes inp capacity k → ∃ out', out'.length = bytesIn inp (k + 1) ∧
      decodeLoop capacity ((symbols inp).drop (4 * k)) 0 0 (3 - padsIn inp k) out =
        decodeLoop capacity ((symbols inp).drop (4 * (k + 1))) 0 0 (3 - padsIn inp (k + 1)) out') := by
  obtain ⟨a, b, c, d, hdrop, htake⟩ := drop_group (k := k) (s := symbols inp)
    (by rw [groups] at hk; omega)
  have hsym : ∀ x ∈ [a, b, c, d], codeOf x ≠ 255 := by
    intro x hx
    apply @symbols_spec inp
    apply List.mem_of_mem_take (i := 4 * (k + 1))
    rw [htake]
    exact List.mem_append_right _ hx
  have hpads : padsIn inp (k + 1) = padsIn inp k + pads [a, b, c, d] := by
    rw [padsIn, htake, pads, List.countP_append]
    rfl
  obtain ⟨t, hgroup⟩ := @decodeLoop_group
    ((symbols inp).drop (4 * (k + 1))) out capacity (3 - padsIn inp k) _ _ _ _ hsym
  have hg : (3 : ℤ) - padsIn inp k - pads [a, b, c, d] = 3 - padsIn inp (k + 1) := by omega
  rw [hdrop, hgroup, hg, hout]
  constructor
  · intro hfail
    rw [Passes] at hfail
    rw [if_pos (by omega)]
  · rintro ⟨hlow, hhigh⟩
    rw [if_neg (by omega)]
    refine ⟨_, ?_, rfl⟩
    rw [List.length_append, groupBytes_length, hout, bytesIn]

/-! ## All groups -/

/-- After `k` groups that pass. -/
theorem decode_groups (hk : k ≤ groups inp) (hall : ∀ i < k, Passes inp capacity i) :
    ∃ out, out.length = bytesIn inp k ∧ base64Decode inp capacity =
      decodeLoop capacity ((symbols inp).drop (4 * k)) 0 0 (3 - padsIn inp k) out := by
  induction k with
  | zero => exact ⟨[], rfl, decodeLoop_symbols inp 0 0 3 []⟩
  | succ k ih =>
    obtain ⟨out, hout, hrun⟩ := ih (by omega) fun i hi => hall i (by omega)
    obtain ⟨out', hout', hstep⟩ := (decode_group hk hout).2 (hall k (Nat.lt_succ_self k))
    exact ⟨out', hout', hrun.trans hstep⟩

/-- Characters that do not fill a group. -/
theorem decodeLoop_short (hs : s.length + y < 4) (hsym : ∀ x ∈ s, codeOf x ≠ 255) :
    decodeLoop capacity s t y g out =
      (if s.length + y ≠ 0 then .CRYPT_INVALID_PACKET else .CRYPT_OK, out) := by
  induction s generalizing t y g with
  | nil => rw [decodeLoop, List.length_nil, Nat.zero_add]
  | cons b s ih =>
    rw [List.length_cons] at hs ⊢
    rw [decodeLoop_symbol (hsym b List.mem_cons_self) (by omega),
      ih (by omega) fun x hx => hsym x (List.mem_cons_of_mem b hx)]
    have hsum : s.length + (y + 1) = s.length + 1 + y := by omega
    rw [hsum]

/-- The decoder stops at the first group that does not pass, and otherwise at the end. -/
theorem decode_stops (inp : List UInt8) (capacity : ℕ) : ∃ k ≤ groups inp,
    (∀ i < k, Passes inp capacity i) ∧ (base64Decode inp capacity).2.length = bytesIn inp k ∧
      (k < groups inp → ¬ Passes inp capacity k ∧
        (base64Decode inp capacity).1 = .CRYPT_BUFFER_OVERFLOW) ∧
      (k = groups inp → (base64Decode inp capacity).1 =
        if (symbols inp).length % 4 ≠ 0 then .CRYPT_INVALID_PACKET else .CRYPT_OK) := by
  have hstop : ∃ k, k = groups inp ∨ ¬ Passes inp capacity k := ⟨groups inp, .inl rfl⟩
  have hall : ∀ i < Nat.find hstop, Passes inp capacity i := by
    intro i hi
    by_contra hfail
    exact Nat.find_min hstop hi (.inr hfail)
  have hle : Nat.find hstop ≤ groups inp := Nat.find_min' hstop (.inl rfl)
  have hlast := Nat.find_spec hstop
  generalize Nat.find hstop = k at hall hle hlast
  obtain ⟨out, hout, hrun⟩ := decode_groups hle hall
  refine ⟨k, hle, hall, ?_⟩
  by_cases hk : k < groups inp
  · have hfail : ¬ Passes inp capacity k := hlast.resolve_left hk.ne
    rw [hrun, (decode_group hk hout).1 hfail]
    exact ⟨hout, fun _ => ⟨hfail, rfl⟩, fun h => absurd h hk.ne⟩
  · obtain rfl : k = groups inp := by omega
    have hlen : ((symbols inp).drop (4 * groups inp)).length = (symbols inp).length % 4 := by
      rw [List.length_drop, groups]
      omega
    have hshort := @decodeLoop_short out ((symbols inp).drop (4 * groups inp))
      capacity 0 0 (3 - padsIn inp (groups inp)) (by omega)
      fun x hx => symbols_spec (List.mem_of_mem_drop hx)
    rw [hlen, Nat.add_zero] at hshort
    rw [hrun, hshort]
    exact ⟨hout, fun h => absurd h (lt_irrefl _), fun _ => rfl⟩

theorem bytesIn_mono {i : ℕ} (hi : i ≤ k) : bytesIn inp i ≤ bytesIn inp k := by
  induction hi with
  | refl => exact le_rfl
  | step _ ih => exact ih.trans (Nat.le_add_right _ _)

/-- A text is decoded if its groups are full and all of them pass. -/
theorem decode_ok_iff : (base64Decode inp capacity).1 = .CRYPT_OK ↔
    (symbols inp).length % 4 = 0 ∧ ∀ k < groups inp, Passes inp capacity k := by
  obtain ⟨k, hk, hall, -, hfail, hend⟩ := decode_stops inp capacity
  rcases hk.lt_or_eq with hlt | rfl
  · obtain ⟨hnot, hanswer⟩ := hfail hlt
    rw [hanswer]
    exact iff_of_false nofun fun h => hnot (h.2 k hlt)
  · rw [hend rfl]
    split_ifs with hmod
    · exact iff_of_false nofun fun h => hmod h.1
    · exact iff_of_true rfl ⟨not_not.mp hmod, hall⟩

end

/-! ## The end of the buffer -/

/-- No group that follows passing ones and starts at the end of the buffer has from three to
`capacity + 3` `=` in it and before it. -/
def StaysInside (inp : List UInt8) (capacity : ℕ) : Prop :=
  ∀ k < groups inp, (∀ i < k, padsIn inp (i + 1) ≤ bytesIn inp i + 3) →
    bytesIn inp k = capacity → ¬ (3 ≤ padsIn inp (k + 1) ∧ padsIn inp (k + 1) ≤ capacity + 3)

/-- The characters fill their groups, and every group passes the test of the capacity. -/
def WholeCode (inp : List UInt8) (capacity : ℕ) : Prop :=
  (symbols inp).length % 4 = 0 ∧ ∀ k < groups inp, Passes inp capacity k

section
variable {inp : List UInt8} {capacity : ℕ}

theorem decode_inside_iff :
    (base64Decode inp capacity).2.length ≤ capacity ↔ StaysInside inp capacity := by
  obtain ⟨n, hn, hall, hlen, hfail, -⟩ := decode_stops inp capacity
  rw [hlen]
  constructor
  · rintro hle k hk hbefore rfl ⟨hthree, hroom⟩
    have hpasses : ∀ i ≤ k, Passes inp (bytesIn inp k) i := by
      intro i hi
      rcases hi.lt_or_eq with hlt | rfl
      · have hmono : bytesIn inp i + max 1 (3 - padsIn inp (i + 1)) ≤ bytesIn inp k :=
          bytesIn_mono (k := k) hlt
        exact ⟨hbefore i hlt, by omega⟩
      · exact ⟨hroom, by omega⟩
    -- The group passes, so that the decoder goes on behind it.
    have hbeyond : k < n := by
      by_contra hnot
      exact (hfail (by omega)).1 (hpasses n (by omega))
    have hmono : bytesIn inp k + max 1 (3 - padsIn inp (k + 1)) ≤ bytesIn inp n :=
      bytesIn_mono (k := n) hbeyond
    omega
  · intro hinside
    suffices h : ∀ k ≤ n, bytesIn inp k ≤ capacity from h n le_rfl
    intro k
    induction k with
    | zero => exact fun _ => Nat.zero_le _
    | succ k ih =>
      intro hk
      have hprev := ih (by omega)
      obtain ⟨hlow, hhigh⟩ := hall k hk
      have hno := hinside k (by omega) fun i hi => (hall i (by omega)).1
      rw [bytesIn]
      omega

/-- The decoder stays inside its buffer, and its caller returns something if it fails, exactly if
no group is written behind the end and the text of the attribute is a whole code. -/
theorem decode_safe_iff (inp : List UInt8) (capacity bsize : ℕ) :
    ((base64Decode inp capacity).2.length ≤ capacity ∧
      ((base64Decode (CStr.read inp).val EZPLIB_BUF_LEN).1 ≠ .CRYPT_OK →
        ∃ r, showB64Value (CStr.read inp) bsize = .ok r)) ↔
      StaysInside inp capacity ∧ WholeCode (CStr.read inp).val EZPLIB_BUF_LEN := by
  rw [decode_inside_iff, WholeCode, ← decode_ok_iff]
  apply and_congr_right
  intro _
  constructor
  · intro hcaller
    by_contra hfail
    obtain ⟨r, hr⟩ := hcaller hfail
    rw [showB64Value] at hr
    split at hr
    · rename_i heq
      exact hfail (congrArg Prod.fst heq)
    · cases hr
  · exact fun hok hfail => absurd hok hfail

/-- Four characters of `=` behind a full buffer are written all the same, and a single character
leaves the caller with the length of its whole buffer. -/
theorem decode_safe_pads :
    ¬ ((base64Decode (CStr.ofString "AAAA====").val 3).2.length ≤ 3 ∧
      ((base64Decode (CStr.read (CStr.ofString "AAAA====").val).val EZPLIB_BUF_LEN).1 ≠ .CRYPT_OK →
        ∃ r, showB64Value (CStr.read (CStr.ofString "AAAA====").val) 64 = .ok r)) := by
  rintro ⟨hinside, -⟩
  exact absurd hinside (by decide)

end

end EzpFirmware.UserNvram
