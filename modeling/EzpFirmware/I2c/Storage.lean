import EzpFirmware.Lib.Rounding
import Mathlib.Data.UInt

/-! # The space on a storage device

A display gets the free and the total space as four decimal digits, of which the
last one is behind the point, and a code for the unit.
-/
namespace EzpFirmware.I2c
open Lib

/-- The units in KB. -/
def SIZE_MB : ℕ := 1024
def SIZE_GB : ℕ := SIZE_MB * 1024
def SIZE_TB : ℕ := SIZE_GB * 1024

/-- Up to here the next smaller unit is taken. -/
def SIZE_GB_OD : ℕ := SIZE_MB * 1000
def SIZE_TB_OD : ℕ := SIZE_GB * 1000

/-- `FORMAT_SPACE_OUTPUT_STRING`. -/
def formatSpaceOutputString (spval unitType : ℕ) (wbuf : List UInt8) : List UInt8 :=
  wbuf.take 3 ++
    [.ofNat (spval / 1000), .ofNat (spval % 1000 / 100), .ofNat (spval % 100 / 10),
      .ofNat (spval % 10), .ofNat unitType] ++ wbuf.drop 8

/-- The space goes into a request. -/
def putSpace (space : ℕ) (wbuf : List UInt8) : List UInt8 :=
  if space > SIZE_TB_OD then
    formatSpaceOutputString ((space * 10 + 5 * SIZE_TB / 10) / SIZE_TB) 2 wbuf
  else if space > SIZE_GB_OD then
    formatSpaceOutputString ((space * 10 + 5 * SIZE_GB / 10) / SIZE_GB) 1 wbuf
  else formatSpaceOutputString ((space * 10 + 5 * SIZE_MB / 10) / SIZE_MB) 0 wbuf

/-- `INIT_NOT_INSERT_REQU` for the USB device. -/
def notInsertRequest : List UInt8 := [2, 0x0C, 0]

/-- `INIT_SPACE_REQU` for the USB device. -/
def spaceRequest : List UInt8 := [7, 0x0C, 1, 0, 0, 0, 0, 0]

/-- `usb_storage_info` behind the state of the device: the result, and the requests that are
sent, each with the answer of `i2c_send_and_read`. -/
def usbStorageInfo (insertState freeSpace totalSpace : ℕ) (send : List UInt8 → ℤ) :
    ℤ × List (List UInt8) :=
  if insertState = 0 then (send notInsertRequest, [notInsertRequest])
  else
    let wbuf := putSpace freeSpace spaceRequest
    let result := send wbuf
    if result ≠ 0 then (result, [wbuf])
    else
      let wbuf' := putSpace totalSpace (wbuf.set 2 2)
      (send wbuf', [wbuf, wbuf'])

/-! ## What is shown -/

/-- The number that four digits show, in tenths. -/
def tenths : List UInt8 → ℕ
  | a :: b :: c :: d :: _ => 1000 * a.toNat + 100 * b.toNat + 10 * c.toNat + d.toNat
  | _ => 0

/-- The unit of a code. -/
def unitOf (code : UInt8) : ℕ := if code = 0 then SIZE_MB else if code = 1 then SIZE_GB else SIZE_TB

/-- The bytes of a request that are shown. -/
def shown (wbuf : List UInt8) : List UInt8 := (wbuf.drop 3).take 5

/-- What is shown, in tenths of a KB. -/
def quantity (bytes : List UInt8) : ℕ := tenths bytes * unitOf (bytes.getD 4 0)

/-- Four digits and the code of a unit show a size, rounded to the nearest tenth of the unit. -/
def Shows (bytes : List UInt8) (size : ℕ) : Prop :=
  ∃ a b c d code : UInt8, bytes = [a, b, c, d, code] ∧
    (a ≤ 9 ∧ b ≤ 9 ∧ c ≤ 9 ∧ d ≤ 9) ∧ code ≤ 2 ∧
    (tenths bytes : ℤ) = round (((size * 10 : ℕ) : ℚ) / (unitOf code : ℚ))

/-- The size rounds up to a thousand of the smaller unit, which takes a fifth digit. -/
def TakesFiveDigits (size : ℕ) : Prop :=
  (1023949 ≤ size ∧ size ≤ 1024000) ∨ (1048523572 ≤ size ∧ size ≤ 1048576000)

variable {size size' : ℕ} {wbuf : List UInt8}

theorem shown_format (spval unitType : ℕ) (h : wbuf.length = 8) :
    shown (formatSpaceOutputString spval unitType wbuf) =
      [.ofNat (spval / 1000), .ofNat (spval % 1000 / 100), .ofNat (spval % 100 / 10),
        .ofNat (spval % 10), .ofNat unitType] := by
  have hfront : (wbuf.take 3).length = 3 := by
    rw [List.length_take, h]
    rfl
  rw [shown, formatSpaceOutputString, List.append_assoc, List.drop_append_of_le_length hfront.ge,
    List.drop_of_length_le hfront.le]
  rfl

theorem length_format (spval unitType : ℕ) (h : wbuf.length = 8) :
    (formatSpaceOutputString spval unitType wbuf).length = 8 := by
  simp [formatSpaceOutputString, h]

theorem toNat_ofNat {n : ℕ} (h : n < 256) : (UInt8.ofNat n).toNat = n := by
  rw [UInt8.toNat_ofNat']
  exact Nat.mod_eq_of_lt h

/-- The places of a number that fits are shown. -/
theorem tenths_format {spval : ℕ} (unitType : ℕ) (hspval : spval ≤ 10000) (h : wbuf.length = 8) :
    tenths (shown (formatSpaceOutputString spval unitType wbuf)) = spval := by
  obtain ⟨hb, hc, hd⟩ := places_le spval
  rw [shown_format spval unitType h, tenths, toNat_ofNat (by omega), toNat_ofNat (by omega),
    toNat_ofNat (by omega), toNat_ofNat (by omega), four_places]

/-- Four digits show a number if and only if it has no more. -/
theorem shows_format_iff {spval half unitType : ℕ} (hspval : spval ≤ 10000) (h : wbuf.length = 8)
    (hhalf : 0 < half) (hround : spval = (size * 10 + half) / (2 * half))
    (hcode : unitType ≤ 2) (hunit : unitOf (.ofNat unitType) = 2 * half) :
    Shows (shown (formatSpaceOutputString spval unitType wbuf)) size ↔ spval < 10000 := by
  have htenths := tenths_format unitType hspval h
  have hbytes := shown_format spval unitType h
  obtain ⟨hb, hc, hd⟩ := places_le spval
  constructor
  · rintro ⟨a, b, c, d, code, heq, ⟨ha, -⟩, -⟩
    rw [hbytes] at heq
    obtain ⟨rfl, -⟩ := List.cons.inj heq
    have hle : (UInt8.ofNat (spval / 1000)).toNat ≤ 9 := ha
    rw [toNat_ofNat (by omega)] at hle
    omega
  · intro hlt
    have hle {n : ℕ} (hn : n ≤ 9) : UInt8.ofNat n ≤ 9 := by
      rw [UInt8.le_iff_toNat_le, toNat_ofNat (by omega)]
      exact hn
    refine ⟨_, _, _, _, _, hbytes, ⟨hle (by omega), hle hb, hle hc, hle hd⟩, ?_, ?_⟩
    · rw [UInt8.le_iff_toNat_le, toNat_ofNat (by omega)]
      exact hcode
    · rw [htenths, hunit, hround]
      exact add_half_div_eq_round hhalf (size * 10)

theorem quantity_format {spval : ℕ} (unitType : ℕ) (hspval : spval ≤ 10000)
    (h : wbuf.length = 8) :
    quantity (shown (formatSpaceOutputString spval unitType wbuf)) =
      spval * unitOf (.ofNat unitType) := by
  rw [quantity, tenths_format unitType hspval h, shown_format spval unitType h]
  rfl

theorem unitOf_codes : unitOf (.ofNat 0) = 1024 ∧ unitOf (.ofNat 1) = 1048576 ∧
    unitOf (.ofNat 2) = 1073741824 := by
  decide

theorem sizes : SIZE_MB = 1024 ∧ SIZE_GB = 1048576 ∧ SIZE_TB = 1073741824 ∧
    SIZE_GB_OD = 1024000 ∧ SIZE_TB_OD = 1048576000 := by
  decide

theorem halves : 5 * SIZE_MB / 10 = 512 ∧ 5 * SIZE_GB / 10 = 524288 ∧
    5 * SIZE_TB / 10 = 536870912 := by
  decide

/-- The number and the unit that go into a request. -/
theorem putSpace_eq (size : ℕ) (wbuf : List UInt8) :
    putSpace size wbuf =
      if size > 1048576000 then
        formatSpaceOutputString ((size * 10 + 536870912) / 1073741824) 2 wbuf
      else if size > 1024000 then
        formatSpaceOutputString ((size * 10 + 524288) / 1048576) 1 wbuf
      else formatSpaceOutputString ((size * 10 + 512) / 1024) 0 wbuf := by
  obtain ⟨hmb, hgb, htb, hgbOd, htbOd⟩ := sizes
  obtain ⟨hmb', hgb', htb'⟩ := halves
  rw [putSpace, hmb', hgb', htb', hmb, hgb, htb, hgbOd, htbOd]

/-- What is shown of a size up to 900 TB. -/
theorem shows_putSpace_iff (hsize : size ≤ 900 * SIZE_TB) (h : wbuf.length = 8) :
    Shows (shown (putSpace size wbuf)) size ↔ ¬ TakesFiveDigits size := by
  rw [sizes.2.2.1] at hsize
  rw [putSpace_eq, TakesFiveDigits]
  split_ifs with htb hgb
  · rw [@shows_format_iff _ _ _ 536870912 _ (by omega) h (by omega) rfl le_rfl unitOf_codes.2.2]
    omega
  · rw [@shows_format_iff _ _ _ 524288 _ (by omega) h (by omega) rfl (by omega) unitOf_codes.2.1]
    omega
  · rw [@shows_format_iff _ _ _ 512 _ (by omega) h (by omega) rfl (by omega) unitOf_codes.1]
    omega

/-- The quantity that is shown of a size. -/
theorem quantity_putSpace (hsize : size ≤ 900 * SIZE_TB) (h : wbuf.length = 8) :
    quantity (shown (putSpace size wbuf)) =
      if size > 1048576000 then (size * 10 + 536870912) / 1073741824 * 1073741824
      else if size > 1024000 then (size * 10 + 524288) / 1048576 * 1048576
      else (size * 10 + 512) / 1024 * 1024 := by
  rw [sizes.2.2.1] at hsize
  rw [putSpace_eq]
  split_ifs with htb hgb
  · rw [quantity_format 2 (by omega) h, unitOf_codes.2.2]
  · rw [quantity_format 1 (by omega) h, unitOf_codes.2.1]
  · rw [quantity_format 0 (by omega) h, unitOf_codes.1]

/-- A larger size never shows as less. -/
theorem quantity_mono (hle : size ≤ size') (hsize : size' ≤ 900 * SIZE_TB) {wbuf' : List UInt8}
    (h : wbuf.length = 8) (h' : wbuf'.length = 8) :
    quantity (shown (putSpace size wbuf)) ≤ quantity (shown (putSpace size' wbuf')) := by
  rw [quantity_putSpace (hle.trans hsize) h, quantity_putSpace hsize h']
  split_ifs <;> omega

theorem length_putSpace (size : ℕ) (h : wbuf.length = 8) : (putSpace size wbuf).length = 8 := by
  unfold putSpace
  split_ifs <;> exact length_format _ _ h

/-- The two requests with the space show it with four digits, rounded to the nearest tenth,
if and only if neither size rounds up to a thousand of the smaller unit. The larger of
the two never shows as less. -/
theorem usbStorageInfo_shows_iff (insertState freeSpace totalSpace : ℕ) (send : List UInt8 → ℤ)
    (hinsert : insertState ≠ 0) (hsend : send (putSpace freeSpace spaceRequest) = 0)
    (hfree : freeSpace ≤ 900 * SIZE_TB) (htotal : totalSpace ≤ 900 * SIZE_TB) :
    (∃ first second,
      (usbStorageInfo insertState freeSpace totalSpace send).2 = [first, second] ∧
      Shows (shown first) freeSpace ∧ Shows (shown second) totalSpace ∧
      (freeSpace ≤ totalSpace → quantity (shown first) ≤ quantity (shown second)) ∧
      (totalSpace ≤ freeSpace → quantity (shown second) ≤ quantity (shown first))) ↔
      ¬ TakesFiveDigits freeSpace ∧ ¬ TakesFiveDigits totalSpace := by
  have hfirst : spaceRequest.length = 8 := rfl
  have hsecond : ((putSpace freeSpace spaceRequest).set 2 2).length = 8 := by
    rw [List.length_set, length_putSpace freeSpace hfirst]
  have hsent : (usbStorageInfo insertState freeSpace totalSpace send).2 =
      [putSpace freeSpace spaceRequest,
        putSpace totalSpace ((putSpace freeSpace spaceRequest).set 2 2)] := by
    simp only [usbStorageInfo, if_neg hinsert, hsend, ne_eq, not_true_eq_false, if_false]
  rw [hsent, ← shows_putSpace_iff hfree hfirst, ← shows_putSpace_iff htotal hsecond]
  constructor
  · rintro ⟨first, second, heq, hshow, hshow', -⟩
    obtain ⟨rfl, htail⟩ := List.cons.inj heq
    obtain ⟨rfl, -⟩ := List.cons.inj htail
    exact ⟨hshow, hshow'⟩
  · rintro ⟨hshow, hshow'⟩
    exact ⟨_, _, rfl, hshow, hshow', fun hle => quantity_mono hle htotal hfirst hsecond,
      fun hle => quantity_mono hle hfree hsecond hfirst⟩

theorem usbStorageInfo_of_two_gb :
    (∃ first second, (usbStorageInfo 2 1048576 2097152 fun _ => 0).2 = [first, second] ∧
      Shows (shown first) 1048576 ∧ Shows (shown second) 2097152 ∧
      (1048576 ≤ 2097152 → quantity (shown first) ≤ quantity (shown second)) ∧
      (2097152 ≤ 1048576 → quantity (shown second) ≤ quantity (shown first))) ↔
      ¬ TakesFiveDigits 1048576 ∧ ¬ TakesFiveDigits 2097152 :=
  usbStorageInfo_shows_iff 2 1048576 2097152 (fun _ => 0) (by decide) rfl (by decide) (by decide)

/-- 1000 MB give a first digit of ten. -/
theorem thousand_mb_not_shown :
    ¬ ∃ first second, (usbStorageInfo 2 1024000 2097152 fun _ => 0).2 = [first, second] ∧
      Shows (shown first) 1024000 := by
  rintro ⟨first, second, hsent, a, b, c, d, code, hbytes, ⟨ha, -⟩, -⟩
  have hfirst : (usbStorageInfo 2 1024000 2097152 fun _ => 0).2.head? =
      some [7, 0x0C, 1, 10, 0, 0, 0, 0] := by decide
  rw [hsent] at hfirst
  obtain rfl := Option.some.inj hfirst
  obtain ⟨rfl, -⟩ := List.cons.inj hbytes
  exact absurd ha (by decide)

end EzpFirmware.I2c
