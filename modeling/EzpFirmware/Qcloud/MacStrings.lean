import EzpFirmware.Qcloud.UrlCoding

/-! # MAC addresses as texts

One pass takes the colons out of a text and counts them, and `sscanf` reads what
is left as six numbers. Neither looks at where the colons stood, and `sscanf`
takes blanks and signs in front of a number.
-/
namespace EzpFirmware.Qcloud
open Lib UserNvram

def ETHER_ADDR_LEN : ℕ := 6

/-- `toupper`. -/
def toupper (b : UInt8) : UInt8 := if 0x61 ≤ b ∧ b ≤ 0x7a then b - 0x20 else b

/-- The signs of a number. -/
def sign (b : UInt8) : Bool := b = 0x2b ∨ b = 0x2d

/-- `%02X` of `sscanf`: blanks, and a number of at most two characters with what is behind it. A
mark `0X` and a sign need a digit. -/
def scanHex2 (s : List UInt8) : Option (UInt32 × List UInt8) :=
  match s.dropWhile isSpace with
  | [] => none
  | [a] => if isxdigit a then some ((fromHex a).toUInt32, []) else none
  | a :: b :: rest =>
    if isxdigit a then
      if isxdigit b then some ((fromHex a).toUInt32 * 16 + (fromHex b).toUInt32, rest)
      else if a = 0x30 ∧ lowered b = 0x78 then none
      else some ((fromHex a).toUInt32, b :: rest)
    else if sign a ∧ isxdigit b then
      some (if a = 0x2d then 0 - (fromHex b).toUInt32 else (fromHex b).toUInt32, rest)
    else none

/-- The conversions of `sscanf` one after the other, until one fails. -/
def scanHexes : ℕ → List UInt8 → List UInt32 × List UInt8
  | 0, s => ([], s)
  | n + 1, s =>
    match scanHex2 s with
    | none => ([], s)
    | some (v, rest) => (v :: (scanHexes n rest).1, (scanHexes n rest).2)

/-- `sscanf` with six times `%02X` and `%c`: how many conversions were made, and the numbers. -/
def sscanfMac (s : List UInt8) : ℕ × List UInt32 :=
  let (tmp, rest) := scanHexes ETHER_ADDR_LEN s
  (if tmp.length = ETHER_ADDR_LEN ∧ rest ≠ [] then tmp.length + 1 else tmp.length, tmp)

/-- `util_read_mac_str`: what it returns, what is copied to `mac_str_save`, and `mac_addr`. -/
def utilReadMacStr (macStr : CStr) (macAddr : List UInt8) : ℤ × Option (List UInt8) × List UInt8 :=
  let tmpMac := (utilStripMac macStr.val).map toupper
  let (n, tmp) := sscanfMac tmpMac
  if n = ETHER_ADDR_LEN then (NO_ERROR, some tmpMac, poke macAddr 0 (tmp.map UInt32.toUInt8))
  else (ERR_INVALID_VALUE, none, macAddr)

/-! ## Texts of addresses -/

/-- The text apart from outer spaces. -/
def Inner (text core : List UInt8) : Prop :=
  ∃ front back, text = front ++ core ++ back ∧ (∀ b ∈ front, isSpace b) ∧
    ∀ b ∈ back, isSpace b

/-- Six groups of two hexadecimal digits. -/
structure Groups (groups : List (UInt8 × UInt8)) : Prop where
  length : groups.length = ETHER_ADDR_LEN
  digits : ∀ g ∈ groups, isxdigit g.1 ∧ isxdigit g.2

/-- The two digits of a group. -/
def groupText (g : UInt8 × UInt8) : List UInt8 := [g.1, g.2]

/-- The byte of a group. -/
def groupByte (g : UInt8 × UInt8) : UInt8 := fromHex g.1 * 16 + fromHex g.2

/-- The text is the address, without colons or with one between each two groups. -/
def WritesMac (text : CStr) (addr : List UInt8) : Prop :=
  ∃ groups, Groups groups ∧ addr = groups.map groupByte ∧
    (Inner text.val (groups.flatMap groupText) ∨
      Inner text.val ([COLON].intercalate (groups.map groupText)))

/-- A text of an address is read, and no other. -/
def ReadsMac (text : CStr) : Prop := ∀ macAddr,
  (∀ addr, WritesMac text addr →
    ∃ save, utilReadMacStr text macAddr = (NO_ERROR, some save, poke macAddr 0 addr)) ∧
  ((∀ addr, ¬ WritesMac text addr) →
    ∃ ret, ret ≠ NO_ERROR ∧ utilReadMacStr text macAddr = (ret, none, macAddr))

/-- Numbers of at most two characters one after the other, each with blanks in front. -/
inductive HexFields : ℕ → List UInt8 → Prop where
  | done : HexFields 0 []
  | pair {n : ℕ} {front rest : List UInt8} {a b : UInt8} : (∀ x ∈ front, isSpace x) →
    isxdigit a → isxdigit b → HexFields n rest → HexFields (n + 1) (front ++ a :: b :: rest)
  | signed {n : ℕ} {front rest : List UInt8} {a b : UInt8} : (∀ x ∈ front, isSpace x) →
    sign a → isxdigit b → HexFields n rest → HexFields (n + 1) (front ++ a :: b :: rest)
  | single {n : ℕ} {front rest : List UInt8} {a : UInt8} : (∀ x ∈ front, isSpace x) →
    isxdigit a → (∀ b ∈ rest.head?, ¬ isxdigit b ∧ ¬ (a = 0x30 ∧ lowered b = 0x78)) →
    HexFields n rest → HexFields (n + 1) (front ++ a :: rest)

/-- Apart from outer spaces the text has no colon or five, not at its end, and twelve other
characters, which are six numbers. -/
def Scannable (text : CStr) : Prop :=
  ∃ core, Inner text.val core ∧ (∀ b ∈ core.head?, ¬ isSpace b) ∧
    core.getLast? ≠ some COLON ∧ (core.count COLON = 0 ∨ core.count COLON = 5) ∧
    (core.filter (· ≠ COLON)).length = MAC_STR_LEN ∧
    HexFields ETHER_ADDR_LEN (core.filter (· ≠ COLON))

/-! ## Characters -/

/-- What holds of every number below 256 holds of every byte. -/
theorem byte_all {P : UInt8 → Prop} (h : ∀ n < 256, P (UInt8.ofNat n)) (b : UInt8) : P b := by
  have hb := h b.toNat b.toNat_lt
  rwa [UInt8.ofNat_toNat] at hb

/-- The classes of bytes do not see the case, and the value of a digit does not either. -/
theorem toupper_spec : ∀ b, isSpace (toupper b) = isSpace b ∧
    isxdigit (toupper b) = isxdigit b ∧ (isxdigit b → fromHex (toupper b) = fromHex b) ∧
    sign (toupper b) = sign b ∧ lowered (toupper b) = lowered b ∧
    (toupper b = 0x30 ↔ b = 0x30) ∧ (toupper b = 0x2d ↔ b = 0x2d) :=
  byte_all (by decide +kernel)

theorem isSpace_toupper (b : UInt8) : isSpace (toupper b) = isSpace b :=
  (toupper_spec b).1

theorem isxdigit_toupper (b : UInt8) : isxdigit (toupper b) = isxdigit b :=
  (toupper_spec b).2.1

theorem fromHex_toupper (b : UInt8) (h : isxdigit b) : fromHex (toupper b) = fromHex b :=
  (toupper_spec b).2.2.1 h

theorem sign_toupper (b : UInt8) : sign (toupper b) = sign b :=
  (toupper_spec b).2.2.2.1

theorem lowered_toupper (b : UInt8) : lowered (toupper b) = lowered b :=
  (toupper_spec b).2.2.2.2.1

theorem toupper_zero (b : UInt8) : toupper b = 0x30 ↔ b = 0x30 :=
  (toupper_spec b).2.2.2.2.2.1

theorem toupper_minus (b : UInt8) : toupper b = 0x2d ↔ b = 0x2d :=
  (toupper_spec b).2.2.2.2.2.2

/-- A digit is no space, no sign and no colon, and a sign is no space. -/
theorem classes_apart : ∀ b, (isxdigit b → ¬ isSpace b ∧ ¬ sign b ∧ b ≠ COLON) ∧
    (sign b → ¬ isSpace b ∧ ¬ isxdigit b) :=
  byte_all (by decide +kernel)

theorem isxdigit_ne (b : UInt8) : isxdigit b → ¬ isSpace b ∧ ¬ sign b ∧ b ≠ COLON :=
  (classes_apart b).1

theorem sign_ne (b : UInt8) : sign b → ¬ isSpace b ∧ ¬ isxdigit b :=
  (classes_apart b).2

/-! ## Scanning -/

theorem dropWhile_toupper (s : List UInt8) :
    (s.map toupper).dropWhile isSpace = (s.dropWhile isSpace).map toupper := by
  have hcomp : isSpace ∘ toupper = isSpace := funext isSpace_toupper
  rw [List.dropWhile_map, hcomp]

/-- The case of the letters makes no difference. -/
theorem scanHex2_toupper (s : List UInt8) :
    scanHex2 (s.map toupper) = (scanHex2 s).map (Prod.map id (List.map toupper)) := by
  rw [scanHex2, scanHex2, dropWhile_toupper]
  match s.dropWhile isSpace with
  | [] => rfl
  | [a] =>
    simp only [List.map_cons, List.map_nil, isxdigit_toupper]
    split_ifs with ha
    · simp [fromHex_toupper a ha]
    · rfl
  | a :: b :: rest =>
    simp only [List.map_cons, isxdigit_toupper, sign_toupper, lowered_toupper, toupper_zero,
      toupper_minus]
    split_ifs with ha hb hmark hsign
    · simp [fromHex_toupper a ha, fromHex_toupper b hb]
    · rfl
    · simp [fromHex_toupper a ha]
    · simp [fromHex_toupper b hsign.2]
    · simp [fromHex_toupper b hsign.2]
    · rfl

theorem scanHexes_toupper (n : ℕ) (s : List UInt8) :
    scanHexes n (s.map toupper) = ((scanHexes n s).1, (scanHexes n s).2.map toupper) := by
  induction n generalizing s with
  | zero => rfl
  | succ n ih =>
    rw [scanHexes, scanHexes, scanHex2_toupper]
    cases scanHex2 s with
    | none => rfl
    | some r =>
      dsimp only [Option.map_some, Prod.map]
      rw [ih]
      rfl

theorem scanHex2_front {front : List UInt8} (h : ∀ x ∈ front, isSpace x) (s : List UInt8) :
    scanHex2 (front ++ s) = scanHex2 s := by
  have hdrop : (front ++ s).dropWhile isSpace = s.dropWhile isSpace :=
    List.dropWhile_append_of_pos h
  rw [scanHex2, scanHex2, hdrop]

theorem scanHex2_pair {a b : UInt8} (ha : isxdigit a) (hb : isxdigit b) (rest : List UInt8) :
    scanHex2 (a :: b :: rest) = some ((fromHex a).toUInt32 * 16 + (fromHex b).toUInt32, rest) := by
  have hspace := (isxdigit_ne a ha).1
  rw [scanHex2, List.dropWhile_cons_of_neg hspace]
  simp [ha, hb]

theorem scanHex2_signed {a b : UInt8} (ha : sign a) (hb : isxdigit b) (rest : List UInt8) :
    ∃ v, scanHex2 (a :: b :: rest) = some (v, rest) := by
  obtain ⟨hspace, hdigit⟩ := sign_ne a ha
  rw [scanHex2, List.dropWhile_cons_of_neg hspace]
  simp [ha, hb, hdigit]

theorem scanHex2_single {a : UInt8} {rest : List UInt8} (ha : isxdigit a)
    (hrest : ∀ b ∈ rest.head?, ¬ isxdigit b ∧ ¬ (a = 0x30 ∧ lowered b = 0x78)) :
    scanHex2 (a :: rest) = some ((fromHex a).toUInt32, rest) := by
  have hspace := (isxdigit_ne a ha).1
  rw [scanHex2, List.dropWhile_cons_of_neg hspace]
  cases rest with
  | nil => simp [ha]
  | cons b rest =>
    obtain ⟨hb, hmark⟩ := hrest b rfl
    simp [ha, hb, hmark]

/-- What is read of one number, and then of the rest. -/
theorem scanHexes_some {n : ℕ} {s rest : List UInt8} {v : UInt32}
    (h : scanHex2 s = some (v, rest)) :
    scanHexes (n + 1) s = (v :: (scanHexes n rest).1, (scanHexes n rest).2) := by
  rw [scanHexes, h]

/-- Texts of numbers are read to their end. -/
theorem HexFields.scanned {n : ℕ} {s : List UInt8} (h : HexFields n s) :
    ∃ vals, scanHexes n s = (vals, []) ∧ vals.length = n := by
  -- what one number does to the rest of the text
  have hstep {n : ℕ} {front t rest : List UInt8} {v : UInt32}
      (hfront : ∀ x ∈ front, isSpace x) (hscan : scanHex2 t = some (v, rest))
      (hrest : ∃ vals, scanHexes n rest = (vals, []) ∧ vals.length = n) :
      ∃ vals, scanHexes (n + 1) (front ++ t) = (vals, []) ∧ vals.length = n + 1 := by
    obtain ⟨vals, heq, hlen⟩ := hrest
    refine ⟨v :: vals, ?_, congrArg (· + 1) hlen⟩
    rw [scanHexes_some ((scanHex2_front hfront t).trans hscan), heq]
  induction h with
  | done => exact ⟨[], rfl, rfl⟩
  | pair hfront ha hb _ ih => exact hstep hfront (scanHex2_pair ha hb _) ih
  | signed hfront ha hb _ ih =>
    obtain ⟨v, hscan⟩ := scanHex2_signed ha hb _
    exact hstep hfront hscan ih
  | single hfront ha hrest _ ih => exact hstep hfront (scanHex2_single ha hrest) ih

/-- A text that is read to its end is one of numbers. -/
theorem HexFields.of_scanned {n : ℕ} {s : List UInt8} {vals : List UInt32}
    (hscan : scanHexes n s = (vals, [])) (hlen : vals.length = n) : HexFields n s := by
  induction n generalizing s vals with
  | zero =>
    obtain ⟨-, rfl⟩ : [] = vals ∧ s = [] := by simpa [scanHexes] using hscan
    exact .done
  | succ n ih =>
    have hsplit := List.takeWhile_append_dropWhile (p := isSpace) (l := s)
    have hfront : ∀ x ∈ s.takeWhile isSpace, isSpace x :=
      fun x hx => List.mem_takeWhile_imp hx
    rw [scanHexes, scanHex2] at hscan
    generalize s.takeWhile isSpace = front at hsplit hfront
    rw [← hsplit]
    -- the rest is read by the other conversions
    have hrest {rest : List UInt8} {v : UInt32}
        (h : (v :: (scanHexes n rest).1, (scanHexes n rest).2) = (vals, [])) :
        HexFields n rest := by
      obtain ⟨rfl, hnil⟩ := Prod.mk.inj h
      exact ih (Prod.ext rfl hnil) (Nat.succ.inj hlen)
    have hnone (h : (([] : List UInt32), s) = (vals, [])) : False := by
      obtain ⟨rfl, -⟩ := Prod.mk.inj h
      cases hlen
    match hd : s.dropWhile isSpace with
    | [] =>
      rw [hd] at hscan
      exact absurd hscan hnone
    | [a] =>
      rw [hd] at hscan
      dsimp only at hscan
      by_cases ha : isxdigit a
      · rw [if_pos ha] at hscan
        exact .single hfront ha (by simp) (hrest hscan)
      · rw [if_neg ha] at hscan
        exact absurd hscan hnone
    | a :: b :: rest =>
      rw [hd] at hscan
      dsimp only at hscan
      split_ifs at hscan with ha hb hmark hsign
      · exact .pair hfront ha hb (hrest hscan)
      · exact absurd hscan hnone
      · refine .single hfront ha (fun c hc => ?_) (hrest hscan)
        obtain rfl : b = c := Option.some.inj hc
        exact ⟨hb, hmark⟩
      · exact .signed hfront hsign.1 hsign.2 (hrest hscan)
      · exact .signed hfront hsign.1 hsign.2 (hrest hscan)
      · exact absurd hscan hnone

/-- The last character of numbers is a digit. -/
theorem HexFields.getLast {n : ℕ} {s : List UInt8} (h : HexFields n s) :
    ∀ b ∈ s.getLast?, isxdigit b := by
  induction h with
  | done => simp
  | @pair n front rest a b _ _ hb _ ih =>
    rw [List.getLast?_append_cons, List.getLast?_cons_cons, List.getLast?_cons]
    cases hlast : rest.getLast? with
    | none => simpa using hb
    | some c => simpa using ih c hlast
  | @signed n front rest a b _ _ hb _ ih =>
    rw [List.getLast?_append_cons, List.getLast?_cons_cons, List.getLast?_cons]
    cases hlast : rest.getLast? with
    | none => simpa using hb
    | some c => simpa using ih c hlast
  | @single n front rest a _ ha _ _ ih =>
    rw [List.getLast?_append_cons, List.getLast?_cons]
    cases hlast : rest.getLast? with
    | none => simpa using ha
    | some c => simpa using ih c hlast

end EzpFirmware.Qcloud
