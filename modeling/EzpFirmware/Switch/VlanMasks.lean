import EzpFirmware.Switch.VlanParse

/-! # The masks of a port list

A mask has the bit of every listed number, taken modulo 32, and of no other. So a number of
32 or more counts for a port that the text need not list.
-/
namespace EzpFirmware.Switch
open Lib

variable {driver : SwitchDriver} {j : ℕ}

/-! ## Single bits -/

theorem shiftOne_getLsbD (n : ℕ) :
    (shiftOne (BitVec.ofNat 32 n)).getLsbD j = true ↔ n % 32 = j := by
  have hmod : (BitVec.ofNat 32 n).toNat % 32 = n % 32 := by
    rw [BitVec.toNat_ofNat]
    exact Nat.mod_mod_of_dvd n ⟨2 ^ 27, rfl⟩
  have hlt : n % 32 < 32 := Nat.mod_lt n (Nat.le_of_ble_eq_true rfl)
  rw [shiftOne, hmod, ← BitVec.twoPow_eq, BitVec.getLsbD_twoPow]
  simp [hlt]

/-- The bits that are kept at the end. -/
theorem cut_getLsbD {ports : ℕ} (hports : ports < 32) :
    (1#32 <<< ports - 1#32).getLsbD j = decide (j < ports) := by
  have hpow : 2 ^ ports < 2 ^ 32 := Nat.pow_lt_pow_right (Nat.le_of_ble_eq_true rfl) hports
  have hone : 1 ≤ 2 ^ ports := Nat.one_le_two_pow
  have hval : (1#32 <<< ports - 1#32).toNat = 2 ^ ports - 1 := by
    rw [← BitVec.twoPow_eq, BitVec.toNat_sub, BitVec.toNat_twoPow, Nat.mod_eq_of_lt hpow]
    have hshift : 2 ^ 32 - (1#32).toNat + 2 ^ ports = 2 ^ ports - 1 + 2 ^ 32 := by
      have : (1#32).toNat = 1 := rfl
      omega
    rw [hshift, Nat.add_mod_right, Nat.mod_eq_of_lt (by omega)]
  rw [BitVec.getLsbD, hval, Nat.testBit_two_pow_sub_one]

/-! ## One word -/

theorem isUntagged_iff (w : List UInt8) : IsUntagged driver w ↔
    (lastMark (flags w)).getD (decide (BitVec.ofNat 32 (number w) ≠ driver.cpuport)) = true := by
  rw [IsUntagged]
  cases lastMark (flags w) with
  | none => simp
  | some m => simp

theorem port_markWord (c : SwitchVlanConfig) (w : List UInt8) :
    (c.markWord driver w).port.getLsbD j = true ↔
      c.port.getLsbD j = true ∨ number w % 32 = j ∧ True := by
  simp [SwitchVlanConfig.markWord, SwitchVlanConfig.mark, shiftOne_getLsbD]

theorem untag_markWord (c : SwitchVlanConfig) (w : List UInt8) :
    (c.markWord driver w).untag.getLsbD j = true ↔
      c.untag.getLsbD j = true ∨ number w % 32 = j ∧ IsUntagged driver w := by
  rw [isUntagged_iff, SwitchVlanConfig.markWord]
  generalize (lastMark (flags w)).getD _ = u
  cases u <;> simp [SwitchVlanConfig.mark, shiftOne_getLsbD]

theorem pvid_markWord (c : SwitchVlanConfig) (w : List UInt8) :
    (c.markWord driver w).pvid.getLsbD j = true ↔
      c.pvid.getLsbD j = true ∨ number w % 32 = j ∧ IsStarred w := by
  by_cases hstar : (0x2a : UInt8) ∈ flags w
  · simp [SwitchVlanConfig.markWord, SwitchVlanConfig.mark, shiftOne_getLsbD, IsStarred, hstar]
  · simp [SwitchVlanConfig.markWord, SwitchVlanConfig.mark, IsStarred, hstar]

/-! ## All words -/

section Mask
variable {mask : SwitchVlanConfig → BitVec 32} {P : List UInt8 → Prop}

/-- What one word adds to a mask, all words add to it. -/
theorem mask_foldl (hmask : ∀ c w, (mask (c.markWord driver w)).getLsbD j = true ↔
      (mask c).getLsbD j = true ∨ number w % 32 = j ∧ P w)
    (ws : List (List UInt8)) (c : SwitchVlanConfig) :
    (mask (ws.foldl (SwitchVlanConfig.markWord driver) c)).getLsbD j = true ↔
      (mask c).getLsbD j = true ∨ ∃ w ∈ ws, number w % 32 = j ∧ P w := by
  induction ws generalizing c with
  | nil => simp
  | cons w ws ih =>
    rw [List.foldl_cons, ih, hmask]
    simp only [List.mem_cons, exists_eq_or_imp]
    exact or_assoc

/-- The numbers modulo 32 name the ports that the numbers name, when no number of 32 or more
names a port that is not listed as such. -/
theorem mod_iff (ws : List (List UInt8)) (ports : ℕ) (hports : ports < 32) :
    (∀ j, (j < ports ∧ ∃ w ∈ ws, number w % 32 = j ∧ P w) ↔
        j < ports ∧ ∃ w ∈ ws, number w = j ∧ P w) ↔
      ∀ w ∈ ws, 32 ≤ number w → number w % 32 < ports → P w →
        ∃ w' ∈ ws, number w' = number w % 32 ∧ P w' := by
  constructor
  · intro h w hw _ hlt hP
    exact ((h (number w % 32)).mp ⟨hlt, w, hw, rfl, hP⟩).2
  · intro h j
    constructor
    · rintro ⟨hj, w, hw, rfl, hP⟩
      refine ⟨hj, ?_⟩
      by_cases hfar : 32 ≤ number w
      · exact h w hw hfar hj hP
      · exact ⟨w, hw, (Nat.mod_eq_of_lt (not_le.mp hfar)).symm, hP⟩
    · rintro ⟨hj, w, hw, rfl, hP⟩
      exact ⟨hj, w, hw, Nat.mod_eq_of_lt (hj.trans hports), hP⟩

end Mask

/-! ## What an accepted text means -/

theorem cut_port {ports : ℕ} (hports : ports < 32) (c : SwitchVlanConfig) :
    (c.cut ports).port.getLsbD j = true ↔ j < ports ∧ c.port.getLsbD j = true := by
  rw [SwitchVlanConfig.cut, BitVec.getLsbD_and, cut_getLsbD hports]
  simp [and_comm]

theorem cut_untag {ports : ℕ} (hports : ports < 32) (c : SwitchVlanConfig) :
    (c.cut ports).untag.getLsbD j = true ↔ j < ports ∧ c.untag.getLsbD j = true := by
  rw [SwitchVlanConfig.cut, BitVec.getLsbD_and, cut_getLsbD hports]
  simp [and_comm]

theorem cut_pvid {ports : ℕ} (hports : ports < 32) (c : SwitchVlanConfig) :
    (c.cut ports).pvid.getLsbD j = true ↔ j < ports ∧ c.pvid.getLsbD j = true := by
  rw [SwitchVlanConfig.cut, BitVec.getLsbD_and, cut_getLsbD hports]
  simp [and_comm]

/-- The bits of what is read, for the words of a text. -/
theorem masks_of_words (hports : driver.ports < 32) (ws : List (List UInt8)) (j : ℕ) :
    let c := (ws.foldl (SwitchVlanConfig.markWord driver) {}).cut driver.ports
    (c.port.getLsbD j = true ↔ j < driver.ports ∧ ∃ w ∈ ws, number w % 32 = j ∧ True) ∧
    (c.untag.getLsbD j = true ↔
      j < driver.ports ∧ ∃ w ∈ ws, number w % 32 = j ∧ IsUntagged driver w) ∧
    (c.pvid.getLsbD j = true ↔ j < driver.ports ∧ ∃ w ∈ ws, number w % 32 = j ∧ IsStarred w) := by
  refine ⟨?_, ?_, ?_⟩
  · rw [cut_port hports, @mask_foldl _ _ SwitchVlanConfig.port _ port_markWord]
    simp
  · rw [cut_untag hports, @mask_foldl _ _ SwitchVlanConfig.untag _ untag_markWord]
    simp
  · rw [cut_pvid hports, @mask_foldl _ _ SwitchVlanConfig.pvid _ pvid_markWord]
    simp

/-- An accepted text is read as it says if and only if its numbers of 32 or more change
nothing. -/
theorem means_iff (hports : driver.ports < 32) (s : CStr) :
    Means driver s (((words isspace s.val).foldl (SwitchVlanConfig.markWord driver) {}).cut
      driver.ports) ↔ FarNumbersHarmless driver s := by
  have hmasks := masks_of_words hports (words isspace s.val)
  have hall := mod_iff (P := fun _ => True) (words isspace s.val) driver.ports hports
  have huntag := mod_iff (P := IsUntagged driver) (words isspace s.val) driver.ports hports
  have hstar := mod_iff (P := IsStarred) (words isspace s.val) driver.ports hports
  constructor
  · rintro ⟨hp, hu, hv⟩ w hw hfar hlt
    refine ⟨?_, fun hun => ?_, fun hst => ?_⟩
    · obtain ⟨w', hw', hn, -⟩ := hall.mp (fun j => by
        rw [← (hmasks j).1, hp j]
        simp [Lists]) w hw hfar hlt trivial
      exact ⟨w', hw', hn⟩
    · obtain ⟨w', hw', hn, hP⟩ := huntag.mp (fun j => by
        rw [← (hmasks j).2.1, hu j]
        simp [Lists, and_assoc]) w hw hfar hlt hun
      exact ⟨w', ⟨hw', hn⟩, hP⟩
    · obtain ⟨w', hw', hn, hP⟩ := hstar.mp (fun j => by
        rw [← (hmasks j).2.2, hv j]
        simp [Lists, and_assoc]) w hw hfar hlt hst
      exact ⟨w', ⟨hw', hn⟩, hP⟩
  · intro h
    refine ⟨fun j => ?_, fun j => ?_, fun j => ?_⟩
    · rw [(hmasks j).1, hall.mpr (fun w hw hfar hlt _ => by
        obtain ⟨w', hw'⟩ := (h w hw hfar hlt).1
        exact ⟨w', hw'.1, hw'.2, trivial⟩) j]
      simp [Lists]
    · rw [(hmasks j).2.1, huntag.mpr (fun w hw hfar hlt hun => by
        obtain ⟨w', hw', hP⟩ := (h w hw hfar hlt).2.1 hun
        exact ⟨w', hw'.1, hw'.2, hP⟩) j]
      simp [Lists, and_assoc]
    · rw [(hmasks j).2.2, hstar.mpr (fun w hw hfar hlt hst => by
        obtain ⟨w', hw', hP⟩ := (h w hw hfar hlt).2.2 hst
        exact ⟨w', hw'.1, hw'.2, hP⟩) j]
      simp [Lists, and_assoc]

end EzpFirmware.Switch
