import EzpFirmware.Lib.Filling
import EzpFirmware.Lib.Numerals
import EzpFirmware.Lib.Layout
import EzpFirmware.Qcloud.Conf
import EzpFirmware.UserNvram.Upgrade

/-! # Texts in URLs

The encoder keeps the unreserved characters, writes a blank as a plus sign and
escapes every other byte with two hexadecimal digits. The decoder takes the two
characters behind a percent sign as they are. Both go through their input and
their output with pointers, so the loops have no result outside of either.
-/
namespace EzpFirmware.Qcloud
open Lib UserNvram

def PERCENT : UInt8 := 0x25

def PLUS : UInt8 := 0x2b

def BLANK : UInt8 := 0x20

/-- `isalnum`. -/
def isalnum (b : UInt8) : Bool := isdigit b ∨ 0x41 ≤ b ∧ b ≤ 0x5a ∨ 0x61 ≤ b ∧ b ≤ 0x7a

/-- The characters that the encoder keeps. -/
def unreserved (b : UInt8) : Bool := isalnum b ∨ b = 0x2d ∨ b = 0x5f ∨ b = 0x2e ∨ b = 0x7e

/-- `from_hex`. -/
def fromHex (ch : UInt8) : UInt8 := if isdigit ch then ch - 0x30 else lowered ch - 0x61 + 10

/-- `to_hex`. -/
def toHex (code : UInt8) : UInt8 := lowerHex (code &&& 15).toNat

/-- The loop of `util_url_encode`, from `pstr` on. -/
def urlEncodeLoop : List UInt8 → Filling UInt8 → Option (Filling UInt8)
  | [], _ => none
  | c :: pstr, buf =>
    if c = 0 then buf.push 0
    else if unreserved c then do urlEncodeLoop pstr (← buf.push c)
    else if c = BLANK then do urlEncodeLoop pstr (← buf.push PLUS)
    else do
      let buf ← buf.push PERCENT
      let buf ← buf.push (toHex (c >>> 4))
      urlEncodeLoop pstr (← buf.push (toHex (c &&& 15)))

/-- `util_url_encode`, on the memory that `str` points to: what is written to `buf`. -/
def utilUrlEncode (str : List UInt8) : Option (List UInt8) :=
  (urlEncodeLoop str (.start ((CStr.read str).len * 3 + 1))).map Filling.out

/-- The loop of `util_url_decode`, from `pstr` on. -/
def urlDecodeLoop : List UInt8 → Filling UInt8 → Option (Filling UInt8)
  | [], _ => none
  | c :: pstr, buf =>
    if c = 0 then buf.push 0
    else if c = PERCENT then
      match pstr with
      | [] => none
      | a :: rest =>
        if a = 0 then urlDecodeLoop (a :: rest) buf
        else
          match rest with
          | [] => none
          | b :: rest =>
            if b = 0 then urlDecodeLoop (a :: b :: rest) buf
            else do urlDecodeLoop rest (← buf.push (fromHex a <<< 4 ||| fromHex b))
    else if c = PLUS then do urlDecodeLoop pstr (← buf.push BLANK)
    else do urlDecodeLoop pstr (← buf.push c)

/-- `util_url_decode`, on the memory that `str` points to: what is written to `buf`. -/
def utilUrlDecode (str : List UInt8) : Option (List UInt8) :=
  (urlDecodeLoop str (.start ((CStr.read str).len + 1))).map Filling.out

/-! ## What the loops write -/

/-- What a byte is encoded to. -/
def urlByte (b : UInt8) : List UInt8 :=
  if unreserved b then [b]
  else if b = BLANK then [PLUS]
  else [PERCENT, toHex (b >>> 4), toHex (b &&& 15)]

/-- What a text is encoded to. -/
def urlEncoded (s : List UInt8) : List UInt8 := s.flatMap urlByte

/-- What a text is decoded to. A percent sign with less than two characters behind it is left
out. -/
def urlDecoded : List UInt8 → List UInt8
  | [] => []
  | c :: rest =>
    if c = PERCENT then
      match rest with
      | a :: b :: rest => (fromHex a <<< 4 ||| fromHex b) :: urlDecoded rest
      | [a] => urlDecoded [a]
      | [] => urlDecoded []
    else (if c = PLUS then BLANK else c) :: urlDecoded rest

theorem urlByte_length (b : UInt8) : (urlByte b).length ≤ 3 := by
  unfold urlByte
  split_ifs <;> simp

theorem urlEncoded_length (s : List UInt8) : (urlEncoded s).length ≤ 3 * s.length := by
  induction s with
  | nil => simp [urlEncoded]
  | cons b s ih =>
    have hb := urlByte_length b
    rw [urlEncoded, List.flatMap_cons, List.length_append, List.length_cons]
    rw [urlEncoded] at ih
    omega

@[simp] theorem urlDecoded_nil : urlDecoded [] = [] := by rw [urlDecoded]

theorem urlDecoded_plain {c : UInt8} (hc : c ≠ PERCENT) (rest : List UInt8) :
    urlDecoded (c :: rest) = (if c = PLUS then BLANK else c) :: urlDecoded rest := by
  rw [urlDecoded.eq_def]
  exact if_neg hc

theorem urlDecoded_escape (a b : UInt8) (rest : List UInt8) :
    urlDecoded (PERCENT :: a :: b :: rest) =
      (fromHex a <<< 4 ||| fromHex b) :: urlDecoded rest := by
  rw [urlDecoded, if_pos rfl]

@[simp] theorem urlDecoded_percent : urlDecoded [PERCENT] = [] := rfl

theorem urlDecoded_cut (a : UInt8) : urlDecoded [PERCENT, a] = urlDecoded [a] := by
  rw [urlDecoded.eq_def]
  exact if_pos rfl

/-- Decoding makes no text longer. -/
theorem urlDecoded_length (s : List UInt8) : (urlDecoded s).length ≤ s.length := by
  induction s using urlDecoded.induct with
  | case1 => simp
  | case2 a b s ih =>
    rw [urlDecoded_escape]
    simp only [List.length_cons]
    omega
  | case3 a ih =>
    rw [urlDecoded_cut]
    simp only [List.length_cons] at ih ⊢
    omega
  | case4 ih => simp
  | case5 c s hc ih =>
    rw [urlDecoded_plain hc]
    simp only [List.length_cons]
    omega

/-- The encoder writes the encoded text and its terminator. -/
theorem urlEncodeLoop_eq {s : List UInt8} (hs : (0 : UInt8) ∉ s) (rest : List UInt8)
    {f : Filling UInt8} (hroom : f.out.length + (urlEncoded s).length < f.room) :
    urlEncodeLoop (s ++ 0 :: rest) f = some ⟨f.room, f.out ++ urlEncoded s ++ [0]⟩ := by
  induction s generalizing f with
  | nil =>
    rw [List.nil_append, urlEncodeLoop, if_pos rfl]
    simpa [urlEncoded] using Filling.push_eq (by simpa [urlEncoded] using hroom) 0
  | cons c s ih =>
    obtain ⟨hc, hs⟩ := not_or.mp (mt List.mem_cons.mpr hs)
    have hlen : (urlEncoded (c :: s)).length = (urlByte c).length + (urlEncoded s).length := by
      simp [urlEncoded]
    have hwrite : f.pushAll (urlByte c) = some ⟨f.room, f.out ++ urlByte c⟩ :=
      Filling.pushAll_eq (by omega)
    have hloop : urlEncodeLoop (c :: s ++ 0 :: rest) f =
        (f.pushAll (urlByte c)).bind (urlEncodeLoop (s ++ 0 :: rest)) := by
      rw [List.cons_append, urlEncodeLoop, if_neg (Ne.symm hc), urlByte]
      split_ifs <;> simp [Filling.pushAll, Option.bind_assoc]
    rw [hloop, hwrite, Option.bind_some, ih hs (by simp; omega)]
    simp [urlEncoded]

/-! ## The rounds of the decoder -/

theorem urlDecodeLoop_escape {a b : UInt8} (ha : a ≠ 0) (hb : b ≠ 0) (rest : List UInt8)
    (f : Filling UInt8) : urlDecodeLoop (PERCENT :: a :: b :: rest) f =
      (f.push (fromHex a <<< 4 ||| fromHex b)).bind (urlDecodeLoop rest) := by
  have hne : PERCENT ≠ 0 := by decide
  rw [urlDecodeLoop.eq_def]
  simp [hne, ha, hb]

theorem urlDecodeLoop_cut {a : UInt8} (ha : a ≠ 0) (rest : List UInt8) (f : Filling UInt8) :
    urlDecodeLoop (PERCENT :: a :: 0 :: rest) f = urlDecodeLoop (a :: 0 :: rest) f := by
  have hne : PERCENT ≠ 0 := by decide
  rw [urlDecodeLoop.eq_def]
  simp [hne, ha]

theorem urlDecodeLoop_percent (rest : List UInt8) (f : Filling UInt8) :
    urlDecodeLoop (PERCENT :: 0 :: rest) f = urlDecodeLoop (0 :: rest) f := by
  have hne : PERCENT ≠ 0 := by decide
  rw [urlDecodeLoop.eq_def]
  simp [hne]

theorem urlDecodeLoop_plain {c : UInt8} (hzero : c ≠ 0) (hc : c ≠ PERCENT) (rest : List UInt8)
    (f : Filling UInt8) : urlDecodeLoop (c :: rest) f =
      (f.push (if c = PLUS then BLANK else c)).bind (urlDecodeLoop rest) := by
  rw [urlDecodeLoop.eq_def]
  dsimp only
  rw [if_neg hzero, if_neg hc]
  split_ifs <;> rfl

/-- The decoder writes the decoded text and its terminator. -/
theorem urlDecodeLoop_eq {s : List UInt8} (hs : (0 : UInt8) ∉ s) (rest : List UInt8)
    {f : Filling UInt8} (hroom : f.out.length + s.length < f.room) :
    urlDecodeLoop (s ++ 0 :: rest) f = some ⟨f.room, f.out ++ urlDecoded s ++ [0]⟩ := by
  induction s using urlDecoded.induct generalizing f with
  | case1 =>
    rw [List.nil_append, urlDecodeLoop.eq_def]
    simpa using Filling.push_eq (by simpa using hroom) 0
  | case2 a b s ih =>
    simp only [List.mem_cons, not_or] at hs
    obtain ⟨-, ha, hb, hs⟩ := hs
    simp only [List.length_cons] at hroom
    rw [List.cons_append, List.cons_append, List.cons_append,
      urlDecodeLoop_escape (Ne.symm ha) (Ne.symm hb), Filling.push_eq (by omega), Option.bind_some,
      ih hs (by simp; omega), urlDecoded_escape]
    simp
  | case3 a ih =>
    simp only [List.mem_cons, not_or] at hs
    obtain ⟨-, ha, -⟩ := hs
    simp only [List.length_cons] at hroom
    rw [List.cons_append, List.cons_append, List.nil_append, urlDecodeLoop_cut (Ne.symm ha),
      urlDecoded_cut]
    exact ih (by simpa using ha) (by simp; omega)
  | case4 ih =>
    simp only [List.length_cons] at hroom
    rw [List.cons_append, List.nil_append, urlDecodeLoop_percent, urlDecoded_percent]
    exact ih List.not_mem_nil (by simp; omega)
  | case5 c s hc ih =>
    obtain ⟨hzero, hs⟩ := not_or.mp (mt List.mem_cons.mpr hs)
    rw [List.length_cons] at hroom
    rw [List.cons_append, urlDecodeLoop_plain (Ne.symm hzero) hc, Filling.push_eq (by omega),
      Option.bind_some, ih hs (by simp; omega), urlDecoded_plain hc]
    simp

/-! ## The round trip -/

/-- `isxdigit`. -/
def isxdigit (b : UInt8) : Bool := isdigit b ∨ 0x41 ≤ b ∧ b ≤ 0x46 ∨ 0x61 ≤ b ∧ b ≤ 0x66

/-- Texts of unreserved characters, plus signs and well formed escapes. -/
inductive UrlText : List UInt8 → Prop where
  | nil : UrlText []
  | plain {c : UInt8} {s : List UInt8} : unreserved c → UrlText s → UrlText (c :: s)
  | plus {s : List UInt8} : UrlText s → UrlText (PLUS :: s)
  | escape {a b : UInt8} {s : List UInt8} :
    isxdigit a → isxdigit b → UrlText s → UrlText (PERCENT :: a :: b :: s)

theorem unreserved_ne {c : UInt8} (hc : unreserved c) : c ≠ 0 ∧ c ≠ PERCENT ∧ c ≠ PLUS := by
  refine ⟨?_, ?_, ?_⟩ <;> rintro rfl <;> exact absurd hc (by decide)

theorem isxdigit_toHex (code : UInt8) : isxdigit (toHex code) := by
  have hdigit : ∀ n < 16, isxdigit (lowerHex n) := by decide
  apply hdigit
  rw [UInt8.toNat_and]
  exact Nat.lt_of_le_of_lt Nat.and_le_right (by decide)

/-- The two digits of a byte are read back. -/
theorem fromHex_toHex (c : UInt8) :
    fromHex (toHex (c >>> 4)) <<< 4 ||| fromHex (toHex (c &&& 15)) = c := by
  have hall : ∀ n < 256, fromHex (toHex (UInt8.ofNat n >>> 4)) <<< 4 |||
      fromHex (toHex (UInt8.ofNat n &&& 15)) = UInt8.ofNat n := by decide +kernel
  have hc := hall c.toNat c.toNat_lt
  rwa [UInt8.ofNat_toNat] at hc

theorem urlByte_cases (c : UInt8) : unreserved c ∧ urlByte c = [c] ∨
    c = BLANK ∧ urlByte c = [PLUS] ∨
      urlByte c = [PERCENT, toHex (c >>> 4), toHex (c &&& 15)] := by
  unfold urlByte
  split_ifs with hplain hblank
  · exact .inl ⟨hplain, rfl⟩
  · exact .inr (.inl ⟨hblank, rfl⟩)
  · exact .inr (.inr rfl)

theorem urlEncoded_cons (c : UInt8) (s : List UInt8) :
    urlEncoded (c :: s) = urlByte c ++ urlEncoded s := List.flatMap_cons

theorem urlText_urlEncoded (s : List UInt8) : UrlText (urlEncoded s) := by
  induction s with
  | nil => exact .nil
  | cons c s ih =>
    rw [urlEncoded_cons]
    rcases urlByte_cases c with ⟨hplain, h⟩ | ⟨-, h⟩ | h <;> rw [h]
    · exact .plain hplain ih
    · exact .plus ih
    · exact .escape (isxdigit_toHex _) (isxdigit_toHex _) ih

theorem UrlText.free {s : List UInt8} (h : UrlText s) : (0 : UInt8) ∉ s := by
  have hdigit : ∀ b, isxdigit b → 0 ≠ b := by
    rintro b hb rfl
    exact absurd hb (by decide)
  induction h with
  | nil => exact List.not_mem_nil
  | plain hc _ ih => exact List.not_mem_cons_of_ne_of_not_mem (unreserved_ne hc).1.symm ih
  | plus _ ih => exact List.not_mem_cons_of_ne_of_not_mem (by decide) ih
  | escape ha hb _ ih =>
    exact List.not_mem_cons_of_ne_of_not_mem (by decide)
      (List.not_mem_cons_of_ne_of_not_mem (hdigit _ ha)
        (List.not_mem_cons_of_ne_of_not_mem (hdigit _ hb) ih))

theorem urlDecoded_urlByte (c : UInt8) (s : List UInt8) :
    urlDecoded (urlByte c ++ s) = c :: urlDecoded s := by
  rcases urlByte_cases c with ⟨hplain, h⟩ | ⟨hblank, h⟩ | h <;> rw [h]
  · obtain ⟨-, hpercent, hplus⟩ := unreserved_ne hplain
    rw [List.singleton_append, urlDecoded_plain hpercent, if_neg hplus]
  · rw [List.singleton_append, urlDecoded_plain (by decide), if_pos rfl, hblank]
  · rw [List.cons_append, List.cons_append, List.singleton_append, urlDecoded_escape,
      fromHex_toHex]

theorem urlDecoded_urlEncoded (s : List UInt8) : urlDecoded (urlEncoded s) = s := by
  induction s with
  | nil => exact urlDecoded_nil
  | cons c s ih => rw [urlEncoded_cons, urlDecoded_urlByte, ih]

/-- The encoded text. -/
def urlEncodedText (s : CStr) : CStr := ⟨urlEncoded s.val, (urlText_urlEncoded s.val).free⟩

/-- The encoder has room for every text. -/
theorem utilUrlEncode_eq (s : CStr) : utilUrlEncode s.stored = some (urlEncodedText s).stored := by
  have hlen : (CStr.read s.stored).len = s.val.length := by rw [CStr.read_stored, CStr.len]
  have hbound := urlEncoded_length s.val
  have hloop := urlEncodeLoop_eq s.property []
    (f := Filling.start (s.val.length * 3 + 1)) (by simp [Filling.start]; omega)
  rw [utilUrlEncode, hlen, CStr.stored, hloop]
  rfl

/-- The decoder has room for every text. -/
theorem utilUrlDecode_eq (s : CStr) : utilUrlDecode s.stored = some (urlDecoded s.val ++ [0]) := by
  have hlen : (CStr.read s.stored).len = s.val.length := by rw [CStr.read_stored, CStr.len]
  have hloop := urlDecodeLoop_eq s.property []
    (f := Filling.start (s.val.length + 1)) (by simp [Filling.start])
  rw [utilUrlDecode, hlen, CStr.stored, hloop]
  rfl

/-- The decoder gives back what was encoded, the encoder writes plain text, and the decoder stays
inside its input and its output for every text. -/
theorem utilUrlDecode_utilUrlEncode (s input : CStr) :
    (∃ e : CStr, utilUrlEncode s.stored = some e.stored ∧ UrlText e.val ∧ e.len ≤ 3 * s.len ∧
      utilUrlDecode e.stored = some s.stored) ∧
    ∃ out, utilUrlDecode input.stored = some out ∧ out.length ≤ input.len + 1 := by
  constructor
  · refine ⟨urlEncodedText s, utilUrlEncode_eq s, urlText_urlEncoded s.val,
      urlEncoded_length s.val, ?_⟩
    have hdecode : urlDecoded (urlEncodedText s).val = s.val := urlDecoded_urlEncoded s.val
    rw [utilUrlDecode_eq, hdecode, CStr.stored]
  · refine ⟨_, utilUrlDecode_eq input, ?_⟩
    have hlen := urlDecoded_length input.val
    rw [List.length_append, List.length_singleton, CStr.len]
    omega

end EzpFirmware.Qcloud
