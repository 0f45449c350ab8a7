import EzpFirmware.Httpd.FieldChecks
import EzpFirmware.UserNvram.RuleFetch

/-! # Netmasks and their numbers of bits

A netmask is a number of ones with zeros behind them. The server finds the
number of the ones by a search for the lowest one, which has no end in a mask
without ones.
-/
namespace EzpFirmware.Httpd
open Lib UserNvram

/-! ## The conversions -/

/-- `1L << n`, which has no bit of a mask from 32 on. -/
def oneBit (n : ℕ) : UInt32 := ⟨1#32 <<< n⟩

/-- The search for the lowest one of a mask, from `maskbits` on, as far as it gets in so many
rounds. -/
def countBits (mask : UInt32) : ℕ → ℤ → Option ℤ
  | 0, _ => none
  | rounds + 1, maskbits =>
    if mask &&& oneBit (32 - maskbits).toNat = 0 then countBits mask rounds (maskbits - 1)
    else some maskbits

/-- The loop that creates a netmask from the number of bits. -/
def ones (maskbits : ℤ) : UInt32 :=
  (List.range maskbits.toNat).foldl (fun mask i => mask ||| oneBit (31 - i)) 0

/-- `is_legal_netmask`, as far as it gets in so many rounds. -/
def isLegalNetmask (rounds : ℕ) (value : CStr) : Option Bool :=
  match inetAton value with
  | none => some false
  | some netmask => (countBits netmask rounds 32).map fun maskbits => ones maskbits = netmask

/-- `trans_netmask2int`, as far as it gets in so many rounds. -/
def transNetmask2int (rounds : ℕ) (value : CStr) : Option ℤ :=
  match inetAton value with
  | none => some (-1)
  | some netmask => countBits netmask rounds 32

/-- `trans_int2netmask` with its buffer: the result and what the buffer holds. -/
def transInt2netmaskBuf (maskbits : ℤ) (maskBuf : CStr) (bufLen : ℕ) : ℤ × CStr :=
  if maskbits < 1 ∨ 32 < maskbits then (-1, maskBuf)
  else (0, (inetNtoa (ones maskbits)).take (bufLen - 1))

/-! ## Single bits -/

/-- `k` ones with zeros behind them. -/
def Netmask (k : ℕ) (mask : UInt32) : Prop :=
  ∀ i < 32, mask.toBitVec.getMsbD i = decide (i < k)

instance (k : ℕ) (mask : UInt32) : Decidable (Netmask k mask) :=
  inferInstanceAs (Decidable (∀ i < 32, _))

section
variable {mask : UInt32}

theorem getLsbD_oneBit (n j : ℕ) : (oneBit n).toBitVec.getLsbD j = decide (n < 32 ∧ n = j) := by
  simp [oneBit, ← BitVec.twoPow_eq, BitVec.getLsbD_twoPow]

/-- A bit of a mask is tested by one shifted there. -/
theorem and_oneBit_eq_zero (mask : UInt32) (n : ℕ) :
    mask &&& oneBit n = 0 ↔ mask.toBitVec.getLsbD n = false := by
  rw [← UInt32.toBitVec_inj, UInt32.toBitVec_and, oneBit, ← BitVec.twoPow_eq, BitVec.and_twoPow]
  cases h : mask.toBitVec.getLsbD n with
  | false => simp
  | true =>
    have hn : n < 32 := by
      by_contra hn
      rw [BitVec.getLsbD_of_ge _ _ (by omega)] at h
      cases h
    have hpow : BitVec.twoPow 32 n ≠ 0#32 := by
      intro hzero
      have hbit := congrArg (fun bits => bits.getLsbD n) hzero
      simp [hn] at hbit
    simpa using hpow

theorem netmask_iff {k : ℕ} :
    Netmask k mask ↔ ∀ j < 32, mask.toBitVec.getLsbD j = decide (32 - k ≤ j) := by
  constructor
  · intro h j hj
    have hbit := h (31 - j) (by omega)
    rw [BitVec.getMsbD_eq_getLsbD] at hbit
    simpa [show 31 - j < 32 by omega, show 31 - (31 - j) = j by omega,
      show (31 - j < k) = (32 - k ≤ j) by simp; omega] using hbit
  · intro h i hi
    rw [BitVec.getMsbD_eq_getLsbD, h (32 - 1 - i) (by omega)]
    simp [hi]
    omega

theorem getLsbD_ones {k : ℕ} (hk : k ≤ 32) (j : ℕ) :
    (ones k).toBitVec.getLsbD j = decide (32 - k ≤ j ∧ j < 32) := by
  induction k with
  | zero =>
    simp [ones]
  | succ k ih =>
    have hones : ones ((k + 1 : ℕ) : ℤ) = ones k ||| oneBit (31 - k) := by
      simp only [ones, Int.toNat_natCast, List.range_succ, List.foldl_append, List.foldl_cons,
        List.foldl_nil]
    rw [hones, UInt32.toBitVec_or, BitVec.getLsbD_or, ih (by omega), getLsbD_oneBit,
      ← Bool.decide_or]
    exact decide_eq_decide.mpr (by omega)

/-- The masks that the loop creates are the netmasks. -/
theorem netmask_iff_ones {k : ℕ} (hk : k ≤ 32) : Netmask k mask ↔ ones k = mask := by
  rw [netmask_iff]
  constructor
  · intro h
    rw [← UInt32.toBitVec_inj]
    apply BitVec.eq_of_getLsbD_eq
    intro j hj
    rw [getLsbD_ones hk, h j hj]
    simp [hj]
  · rintro rfl j hj
    rw [getLsbD_ones hk]
    simp [hj]

end

/-! ## The search for the lowest one -/

/-- The bit where the ones of a mask end. -/
structure LowestOne (mask : UInt32) (n : ℕ) : Prop where
  one : mask.toBitVec.getLsbD n = true
  zeros : ∀ j < n, mask.toBitVec.getLsbD j = false

section
variable {mask : UInt32} {n : ℕ}

theorem LowestOne.lt (h : LowestOne mask n) : n < 32 := by
  by_contra hn
  have hone := h.one
  rw [BitVec.getLsbD_of_ge _ _ (by omega)] at hone
  cases hone

theorem exists_lowestOne (h : mask ≠ 0) : ∃ n, LowestOne mask n := by
  have hexists : ∃ n, mask.toBitVec.getLsbD n = true := by
    by_contra hnone
    push Not at hnone
    apply h
    rw [← UInt32.toBitVec_inj]
    apply BitVec.eq_of_getLsbD_eq
    intro i _
    simpa using hnone i
  exact ⟨Nat.find hexists, Nat.find_spec hexists, fun j hj => by
    simpa using Nat.find_min hexists hj⟩

/-- The search ends at the lowest one. -/
theorem LowestOne.countBits (h : LowestOne mask n) {i rounds : ℕ} (hi : i ≤ n)
    (hrounds : n - i < rounds) : countBits mask rounds (32 - i) = some ((32 : ℤ) - n) := by
  induction rounds generalizing i with
  | zero => omega
  | succ rounds ih =>
    have hshift : (32 - ((32 : ℤ) - i)).toNat = i := by omega
    rw [Httpd.countBits, hshift]
    by_cases hin : i = n
    · rw [hin, if_neg (by simp [and_oneBit_eq_zero, h.one])]
    · rw [if_pos ((and_oneBit_eq_zero _ _).mpr (h.zeros i (by omega)))]
      have hnext : (32 : ℤ) - i - 1 = 32 - (i + 1 : ℕ) := by omega
      rw [hnext]
      exact ih (by omega) (by omega)

/-- A mask without ones is searched forever. -/
theorem countBits_zero (rounds : ℕ) (maskbits : ℤ) : countBits 0 rounds maskbits = none := by
  induction rounds generalizing maskbits with
  | zero => rfl
  | succ rounds ih => rw [countBits, if_pos (by simp), ih]

end

/-! ## The conversions at a mask -/

section
variable {mask : UInt32} {n k : ℕ}

/-- The ones of a netmask go down to its lowest one. -/
theorem LowestOne.eq_of_netmask (h : LowestOne mask n) (hk : k ≤ 32) (hmask : Netmask k mask) :
    k = 32 - n := by
  rw [netmask_iff] at hmask
  have hone := h.one
  rw [hmask n h.lt, decide_eq_true_iff] at hone
  rcases Nat.eq_or_lt_of_le hone with hn | hn
  · omega
  · have hzero := h.zeros (32 - k) hn
    rw [hmask _ (by have := h.lt; omega)] at hzero
    simp at hzero

theorem isLegalNetmask_inetNtoa (rounds : ℕ) : isLegalNetmask rounds (inetNtoa mask) =
    (countBits mask rounds 32).map fun maskbits => decide (ones maskbits = mask) := by
  rw [isLegalNetmask, inetAton_inetNtoa]

theorem transNetmask2int_inetNtoa (rounds : ℕ) :
    transNetmask2int rounds (inetNtoa mask) = countBits mask rounds 32 := by
  rw [transNetmask2int, inetAton_inetNtoa]

/-- What the conversions make of a mask. -/
structure NetmaskConverts (mask : UInt32) : Prop where
  /-- The test ends, and tells the netmasks. -/
  legal : ∃ rounds legal, isLegalNetmask rounds (inetNtoa mask) = some legal ∧
    (legal = true ↔ ∃ k ≤ 32, Netmask k mask)
  /-- The count ends, with the number of ones. -/
  count : ∀ k ≤ 32, Netmask k mask → ∃ rounds, transNetmask2int rounds (inetNtoa mask) = some (k : ℤ)
  /-- The number of ones gives the mask, in every buffer with room for an address. -/
  create : ∀ k, 1 ≤ k → k ≤ 32 → Netmask k mask → ∀ maskBuf bufLen, 16 ≤ bufLen →
    transInt2netmaskBuf k maskBuf bufLen = (0, inetNtoa mask)
  /-- What the number of ones gives is counted as that number. -/
  inverse : ∀ k, 1 ≤ k → k ≤ 32 → Netmask k mask → ∀ maskBuf bufLen, 16 ≤ bufLen →
    ∃ rounds, transNetmask2int rounds (transInt2netmaskBuf k maskBuf bufLen).2 = some (k : ℤ)

theorem transInt2netmaskBuf_netmask (hk : 1 ≤ k) (hk' : k ≤ 32) (hmask : Netmask k mask)
    (maskBuf : CStr) {bufLen : ℕ} (hlen : 16 ≤ bufLen) :
    transInt2netmaskBuf k maskBuf bufLen = (0, inetNtoa mask) := by
  have hfits := inetNtoa_len_lt mask
  rw [transInt2netmaskBuf, if_neg (by omega), (netmask_iff_ones hk').mp hmask,
    take_of_len_le (by omega)]

theorem ones_eq : ∀ k ≤ 32, ones (k : ℕ) = UInt32.ofNat (2 ^ 32 - 2 ^ (32 - k)) := by
  decide +kernel

/-- The pages of rules create their masks by the same loop. -/
theorem transInt2netmask_posix (x : RuleContext) (maskbits : ℤ) :
    transInt2netmask (posix x) maskbits =
      (transInt2netmaskBuf maskbits x.unspecified.buf TMP_LEN).2 := by
  rw [transInt2netmask, transInt2netmaskBuf]
  split_ifs with h
  · rfl
  · have hcast : ((maskbits.toNat : ℕ) : ℤ) = maskbits := Int.toNat_of_nonneg (by omega)
    have hfits := inetNtoa_len_lt (ones maskbits)
    rw [take_of_len_le (by rw [TMP_LEN]; omega), ← ones_eq _ (by omega), hcast]
    rfl

/-- With a one in it a mask converts as it should. -/
theorem LowestOne.converts (h : LowestOne mask n) : NetmaskConverts mask := by
  have hne : mask ≠ 0 := by
    rintro rfl
    simpa using h.one
  have hn := h.lt
  have hends : Httpd.countBits mask (n + 1) 32 = some ((32 - n : ℕ) : ℤ) := by
    have hcount := @LowestOne.countBits mask n h 0 (n + 1) (Nat.zero_le n) (by omega)
    have hcast : ((32 - n : ℕ) : ℤ) = 32 - n := by omega
    rw [hcast]
    exact hcount
  have hcount : ∀ k ≤ 32, Netmask k mask →
      ∃ rounds, transNetmask2int rounds (inetNtoa mask) = some (k : ℤ) := by
    intro k hk hmask
    refine ⟨n + 1, ?_⟩
    rw [transNetmask2int_inetNtoa, hends, h.eq_of_netmask hk hmask]
  refine ⟨⟨n + 1, decide (ones ((32 - n : ℕ) : ℤ) = mask), ?_, ?_⟩, hcount, ?_, ?_⟩
  · rw [isLegalNetmask_inetNtoa, hends, Option.map_some]
  · rw [decide_eq_true_iff]
    constructor
    · intro hones
      exact ⟨32 - n, Nat.sub_le 32 n, (netmask_iff_ones (Nat.sub_le 32 n)).mpr hones⟩
    · rintro ⟨k, hk, hmask⟩
      rw [← h.eq_of_netmask hk hmask]
      exact (netmask_iff_ones hk).mp hmask
  · intro k hk hk' hmask maskBuf bufLen hlen
    exact transInt2netmaskBuf_netmask hk hk' hmask maskBuf hlen
  · intro k hk hk' hmask maskBuf bufLen hlen
    rw [transInt2netmaskBuf_netmask hk hk' hmask maskBuf hlen]
    exact hcount k hk' hmask

/-- The conversions of netmasks do what they are for at every mask with a one in it, and only
there. -/
theorem netmaskConverts_iff (mask : UInt32) : NetmaskConverts mask ↔ mask ≠ 0 := by
  constructor
  · rintro hconverts rfl
    obtain ⟨rounds, legal, hlegal, -⟩ := hconverts.legal
    rw [isLegalNetmask_inetNtoa, countBits_zero] at hlegal
    cases hlegal
  · intro hne
    obtain ⟨n, hn⟩ := exists_lowestOne hne
    exact hn.converts

/-- The test of the netmask without ones does not end. -/
theorem isLegalNetmask_any :
    ¬ ∃ rounds legal, isLegalNetmask rounds (.ofString "0.0.0.0") = some legal := by
  rintro ⟨rounds, legal, h⟩
  have hread : inetAton (.ofString "0.0.0.0") = some 0 := by decide +kernel
  rw [isLegalNetmask, hread] at h
  simp only [countBits_zero, Option.map_none] at h
  cases h

end

/-! ## Subnets

The addresses that agree with one in the ones of a netmask are the block of
numbers around it, from the address of the net to its broadcast address.
-/

/-- The address of the net of an address. -/
def network (addr : UInt32) (k : ℕ) : UInt32 := addr &&& ones k

/-- The broadcast address of the net of an address. -/
def broadcast (addr : UInt32) (k : ℕ) : UInt32 := addr ||| ~~~(ones k)

section
variable {k : ℕ} (hk : k ≤ 32)
include hk

theorem testBit_ones (j : ℕ) : (ones k).toNat.testBit j = decide (32 - k ≤ j ∧ j < 32) :=
  getLsbD_ones hk j

/-- The numbers of the zeros of a mask are cut off. -/
theorem network_toNat (addr : UInt32) :
    (network addr k).toNat = addr.toNat / 2 ^ (32 - k) * 2 ^ (32 - k) := by
  apply Nat.eq_of_testBit_eq
  intro j
  rw [network, UInt32.toNat_and, Nat.testBit_and, testBit_ones hk, Nat.testBit_mul_two_pow,
    Nat.testBit_div_two_pow]
  by_cases hj : 32 - k ≤ j
  · by_cases hlt : j < 32
    · simp [hj, hlt, Nat.sub_add_cancel hj]
    · have hhigh : addr.toNat.testBit j = false :=
        Nat.testBit_lt_two_pow (addr.toNat_lt.trans_le (Nat.pow_le_pow_right (by decide) (by omega)))
      simp [hhigh, hlt, Nat.sub_add_cancel hj]
  · simp [hj]

theorem broadcast_toNat (addr : UInt32) : (broadcast addr k).toNat =
    addr.toNat / 2 ^ (32 - k) * 2 ^ (32 - k) + (2 ^ (32 - k) - 1) := by
  have hzeros : ∀ j, (~~~(ones k)).toNat.testBit j = decide (j < 32 - k) := by
    intro j
    have hnot : (~~~(ones k)).toNat.testBit j = (~~~(ones k).toBitVec).getLsbD j := rfl
    rw [hnot, BitVec.getLsbD_not, getLsbD_ones hk]
    by_cases hlow : j < 32 - k
    · rw [decide_eq_false (not_and.mpr fun h => absurd hlow (not_lt.mpr h))]
      simp only [hlow, decide_true, Bool.not_false, Bool.and_true, decide_eq_true_iff]
      omega
    · rw [decide_eq_false hlow]
      by_cases hj : j < 32
      · simp [hj, not_lt.mp hlow]
      · rw [decide_eq_false hj, Bool.false_and]
  apply Nat.eq_of_testBit_eq
  intro j
  rw [broadcast, UInt32.toNat_or, Nat.testBit_or, hzeros, Nat.mul_comm,
    Nat.testBit_two_pow_mul_add _ (Nat.sub_lt (Nat.two_pow_pos _) Nat.one_pos),
    Nat.testBit_two_pow_sub_one, Nat.testBit_div_two_pow]
  by_cases hj : j < 32 - k
  · simp [hj]
  · simp [hj, Nat.sub_add_cancel (not_lt.mp hj)]

/-- Two addresses are in one net if the numbers of their nets agree. -/
theorem and_ones_eq_iff (a b : UInt32) : a &&& ones k = b &&& ones k ↔
    a.toNat / 2 ^ (32 - k) = b.toNat / 2 ^ (32 - k) := by
  rw [← UInt32.toNat_inj, ← network, ← network, network_toNat hk, network_toNat hk]
  exact Nat.mul_left_inj (Nat.two_pow_pos _).ne'

end

/-- The test for the subnet of a dotted quad. -/
theorem isLegalIpNetmask_iff (x : RuleContext) (addr : UInt32) {k : ℕ} (hk : 1 ≤ k) (hk' : k ≤ 32)
    (dip : CStr) :
    isLegalIpNetmask (posix x) (inetNtoa addr) (transInt2netmask (posix x) k) dip = true ↔
      ∃ d, inetAton dip = some d ∧
        d.toNat / 2 ^ (32 - k) = addr.toNat / 2 ^ (32 - k) := by
  have hmask : transInt2netmask (posix x) k = inetNtoa (ones k) := by
    rw [transInt2netmask_posix]
    exact congrArg Prod.snd (transInt2netmaskBuf_netmask hk hk' ((netmask_iff_ones hk').mpr rfl) _
      (by decide))
  rw [isLegalIpNetmask, hmask]
  simp only [posix, inetAton_inetNtoa]
  cases inetAton dip with
  | none => simp
  | some d => simp [and_ones_eq_iff hk', eq_comm]

end EzpFirmware.Httpd
