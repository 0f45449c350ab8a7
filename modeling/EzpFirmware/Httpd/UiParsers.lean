import EzpFirmware.Httpd.Auth
import EzpFirmware.Httpd.Escapes
import EzpFirmware.Lib.Escaping
import EzpFirmware.Lib.Memory
import EzpFirmware.UserNvram.Base64

/-! # Texts for scripts

The pages write names of networks into scripts. Quotes and backslashes get a
backslash in front, in a buffer as long as the one the text comes from.
-/
namespace EzpFirmware.Httpd
open Lib

def BACKSLASH : UInt8 := 0x5c

def APOSTROPHE : UInt8 := 0x27

def QUOTE : UInt8 := 0x22

/-! ## The parsers -/

/-- `tmp` and `tmp_count`. -/
structure Scratch where
  tmp : List UInt8
  count : ℕ

/-- `tmp[tmp_count] = c`, unless this is behind the buffer. -/
def Scratch.push (st : Scratch) (c : UInt8) : Option Scratch :=
  if st.count < st.tmp.length then some ⟨poke st.tmp st.count [c], st.count + 1⟩ else none

/-- The loop over the characters of the text. -/
def parserLoop (special : UInt8 → Bool) : List UInt8 → Scratch → Option Scratch
  | [], st => some st
  | c :: s, st =>
    ((if special c then st.push BACKSLASH else some st).bind (·.push c)).bind (parserLoop special s)

/-- `strcpy` between two buffers. A text without an end is longer than every buffer here. -/
def strcpy (dest src : List UInt8) : Option (List UInt8) :=
  if (0 : UInt8) ∈ src ∧ (CStr.read src).len < dest.length then
    some (poke dest 0 (CStr.read src).stored)
  else none

/-- The body of both parsers: the buffer of the caller afterwards, if nothing else is written. -/
def parser (special : UInt8 → Bool) (src : List UInt8) : Option (List UInt8) :=
  (parserLoop special (CStr.read src).val ⟨List.replicate TMP_LEN 0, 0⟩).bind (strcpy src ·.tmp)

def uiSpecial (c : UInt8) : Bool := c = APOSTROPHE ∨ c = QUOTE ∨ c = BACKSLASH

def surveySpecial (c : UInt8) : Bool := c = BACKSLASH ∨ c = QUOTE

def uiParser : List UInt8 → Option (List UInt8) := parser uiSpecial

def surveyParser : List UInt8 → Option (List UInt8) := parser surveySpecial

/-! ## What is in the buffer -/

/-- A text at the start of a buffer, with zeros behind it. -/
structure Scratch.Starts (st : Scratch) (size : ℕ) (text : List UInt8) : Prop where
  count : st.count = text.length
  tmp : st.tmp = text ++ List.replicate (size - text.length) 0
  fits : text.length ≤ size

namespace Scratch.Starts

variable {st : Scratch} {size : ℕ} {text : List UInt8}

theorem tmp_length (h : st.Starts size text) : st.tmp.length = size := by
  have hfits := h.fits
  rw [h.tmp, List.length_append, List.length_replicate]
  omega

theorem push (h : st.Starts size text) (c : UInt8) (hroom : text.length < size) :
    ∃ st', st.push c = some st' ∧ st'.Starts size (text ++ [c]) := by
  have hput : poke st.tmp st.count [c] =
      text ++ [c] ++ List.replicate (size - (text ++ [c]).length) 0 := by
    rw [poke, h.count, h.tmp, List.take_left' rfl, List.drop_append, List.drop_replicate,
      List.drop_eq_nil_of_le (by simp), List.nil_append, List.length_append,
      List.length_singleton]
    congr 2
    omega
  refine ⟨⟨poke st.tmp st.count [c], st.count + 1⟩, ?_, ?_, hput, ?_⟩
  · rw [Scratch.push, h.count, h.tmp_length, if_pos hroom]
  · simp [h.count]
  · simpa using Nat.succ_le_of_lt hroom

theorem push_full (h : st.Starts size text) (c : UInt8) (hfull : size ≤ text.length) :
    st.push c = none := by
  rw [Scratch.push, h.count, h.tmp_length, if_neg (not_lt.mpr hfull)]

end Scratch.Starts

section
variable {special : UInt8 → Bool} {size : ℕ} {text s : List UInt8} {st : Scratch}

/-- The loop puts the escaped text behind what is there. -/
theorem parserLoop_run (h : st.Starts size text)
    (hroom : text.length + (escape BACKSLASH special s).length ≤ size) :
    ∃ st', parserLoop special s st = some st' ∧
      st'.Starts size (text ++ escape BACKSLASH special s) := by
  induction s generalizing text st with
  | nil => exact ⟨st, rfl, by simpa [escape] using h⟩
  | cons c s ih =>
    rw [escape] at hroom ⊢
    rw [parserLoop]
    split_ifs at hroom ⊢ with hc
    · simp only [List.length_cons] at hroom
      obtain ⟨next, hnext, hmark⟩ := h.push BACKSLASH (by omega)
      obtain ⟨last, hlast, hchar⟩ := hmark.push c (by simp; omega)
      rw [hnext, Option.bind_some, hlast, Option.bind_some]
      simpa using ih hchar (by simp; omega)
    · simp only [List.length_cons] at hroom
      obtain ⟨last, hlast, hchar⟩ := h.push c (by omega)
      rw [Option.bind_some, hlast, Option.bind_some]
      simpa using ih hchar (by simp; omega)

/-- A text that is too long is written behind the buffer. -/
theorem parserLoop_over (h : st.Starts size text)
    (hover : size < text.length + (escape BACKSLASH special s).length) :
    parserLoop special s st = none := by
  induction s generalizing text st with
  | nil => exact absurd h.fits (by simpa [escape] using hover)
  | cons c s ih =>
    have hstep (text : List UInt8) (st : Scratch) (h : st.Starts size text)
        (hover : size < text.length + (escape BACKSLASH special s).length + 1) :
        (st.push c).bind (parserLoop special s) = none := by
      by_cases hroom : text.length < size
      · obtain ⟨next, hnext, hchar⟩ := h.push c hroom
        rw [hnext, Option.bind_some]
        exact ih hchar (by simp; omega)
      · rw [h.push_full c (not_lt.mp hroom)]
        rfl
    rw [escape] at hover
    rw [parserLoop]
    split_ifs at hover ⊢ with hc
    · simp only [List.length_cons] at hover
      by_cases hroom : text.length < size
      · obtain ⟨next, hnext, hmark⟩ := h.push BACKSLASH hroom
        rw [hnext, Option.bind_some]
        exact hstep _ next hmark (by simp; omega)
      · rw [h.push_full BACKSLASH (not_lt.mp hroom)]
        rfl
    · simp only [List.length_cons] at hover
      exact hstep text st h (by omega)

end

/-! ## Buffers -/

section
variable {special : UInt8 → Bool} {src : List UInt8}

theorem starts_empty : (⟨List.replicate TMP_LEN 0, 0⟩ : Scratch).Starts TMP_LEN [] :=
  ⟨rfl, rfl, Nat.zero_le _⟩

theorem zero_notMem_escape (s : CStr) : (0 : UInt8) ∉ escape BACKSLASH special s.val := fun h =>
  (mem_escape h).elim (by decide) s.property

/-- The escaped text of a buffer. -/
def escaped (special : UInt8 → Bool) (s : CStr) : CStr :=
  ⟨escape BACKSLASH special s.val, zero_notMem_escape s⟩

theorem escaped_len (s : CStr) :
    (escaped special s).len = s.len + s.val.countP special := escape_length s.val

theorem parser_of_room (hsrc : src.length = TMP_LEN)
    (hroom : (escaped special (CStr.read src)).len < TMP_LEN) :
    parser special src = some (poke src 0 (escaped special (CStr.read src)).stored) := by
  obtain ⟨st, hrun, hst⟩ := @parserLoop_run special _ _ (CStr.read src).val _
    starts_empty (by rw [List.length_nil, Nat.zero_add]; exact hroom.le)
  have htmp : st.tmp = (escaped special (CStr.read src)).stored ++
      List.replicate (TMP_LEN - (escaped special (CStr.read src)).len - 1) 0 := by
    rw [hst.tmp, List.nil_append, CStr.stored, List.append_assoc, List.singleton_append,
      ← List.replicate_succ, Nat.sub_add_cancel (by omega)]
    rfl
  have hread : CStr.read st.tmp = escaped special (CStr.read src) := by
    rw [htmp, CStr.read_stored_append]
  have hzero : (0 : UInt8) ∈ st.tmp := by
    rw [htmp, CStr.stored]
    simp
  rw [parser, hrun, Option.bind_some, strcpy, hread, if_pos ⟨hzero, by omega⟩]

theorem parser_of_full (hfull : TMP_LEN ≤ (escaped special (CStr.read src)).len) :
    parser special src = none := by
  rw [parser]
  rcases hfull.lt_or_eq with hover | hexact
  · rw [parserLoop_over starts_empty (by rw [List.length_nil, Nat.zero_add]; exact hover),
      Option.bind_none]
  · obtain ⟨st, hrun, hst⟩ := @parserLoop_run special _ _ (CStr.read src).val _
      starts_empty (by rw [List.length_nil, Nat.zero_add]; exact hexact.ge)
    have htmp : st.tmp = (escaped special (CStr.read src)).val := by
      have hzero : TMP_LEN - ([] ++ escape BACKSLASH special (CStr.read src).val).length = 0 :=
        Nat.sub_eq_zero_of_le hexact.le
      rw [hst.tmp, hzero, List.replicate_zero, List.append_nil, List.nil_append]
      rfl
    rw [hrun, Option.bind_some, strcpy, htmp, if_neg fun h => (escaped _ _).property h.1]

/-- A text is escaped inside of its buffer, and comes back without its marks, if and only if the
buffer has room for it and its marks. -/
theorem parsers_escape_iff (src : List UInt8) (hsrc : src.length = TMP_LEN) :
    ∀ p ∈ [(uiParser, uiSpecial), (surveyParser, surveySpecial)],
      (∃ dest, p.1 src = some dest ∧ dest.length = TMP_LEN ∧
        (CStr.read dest).val = escape BACKSLASH p.2 (CStr.read src).val ∧
        Lib.unescape BACKSLASH (CStr.read dest).val = (CStr.read src).val) ↔
      (CStr.read src).len + (CStr.read src).val.countP p.2 < TMP_LEN := by
  rintro ⟨f, special⟩ hp
  obtain ⟨rfl, hmark⟩ : f = parser special ∧ special BACKSLASH = true := by
    rcases List.mem_pair.mp hp with h | h <;> cases h <;> exact ⟨rfl, by decide⟩
  dsimp only
  rw [← escaped_len]
  constructor
  · rintro ⟨dest, hdest, -⟩
    by_contra hfull
    rw [parser_of_full (not_lt.mp hfull)] at hdest
    cases hdest
  · intro hroom
    have hread : CStr.read (poke src 0 (escaped special (CStr.read src)).stored) =
        escaped special (CStr.read src) := by
      rw [poke, List.take_zero, List.nil_append, CStr.read_stored_append]
    refine ⟨_, parser_of_room hsrc hroom, ?_, ?_, ?_⟩
    · rw [poke_length, hsrc]
      rw [CStr.stored_length, hsrc]
      omega
    · rw [hread]
      rfl
    · rw [hread]
      exact Lib.unescape_escape hmark _

theorem parsers_escape_name :
    ∃ dest, uiParser ((CStr.ofString "a'b").stored ++ List.replicate 252 0) = some dest ∧
      (CStr.read dest).val = (CStr.ofString "a\\'b").val := by
  have hread : CStr.read ((CStr.ofString "a'b").stored ++ List.replicate 252 0) =
      CStr.ofString "a'b" := CStr.read_stored_append _ _
  have h := (parsers_escape_iff ((CStr.ofString "a'b").stored ++ List.replicate 252 0)
    (by decide +kernel) (uiParser, uiSpecial) (by simp)).mpr (by rw [hread]; decide +kernel)
  dsimp only at h
  obtain ⟨dest, hdest, -, hval, -⟩ := h
  refine ⟨dest, hdest, ?_⟩
  rw [hval, hread]
  decide +kernel

/-- A name of 128 quotes needs the whole buffer without its end. -/
theorem parsers_overflow :
    uiParser (List.replicate 128 QUOTE ++ List.replicate 128 0) = none ∧
      surveyParser (List.replicate 128 QUOTE ++ List.replicate 128 0) = none := by
  have hread : CStr.read (List.replicate 128 QUOTE ++ List.replicate 128 0) =
      CStr.read (List.replicate 128 QUOTE) := by decide +kernel
  constructor <;> refine parser_of_full ?_ <;> rw [hread, escaped_len] <;> decide +kernel

end

/-! ## The name of a network -/

/-- `ej_nvg_attr_get` for the name of an access point, with the stored text in `buf`. -/
def shownSsid (buf : CStr) : Option CStr :=
  (uiParser (poke (List.replicate TMP_LEN 0) 0
    (UserNvram.base64Decode buf.val TMP_LEN).2)).map CStr.read

/-- A stored text never fills the buffer that it is decoded to. -/
theorem read_decoded {bs : List UInt8} (h : bs.length < TMP_LEN) :
    CStr.read (poke (List.replicate TMP_LEN 0) 0 bs) = CStr.read bs := by
  obtain ⟨n, hn⟩ : ∃ n, TMP_LEN - bs.length = n + 1 := ⟨_, (Nat.sub_add_cancel (by omega)).symm⟩
  rw [poke, List.take_zero, List.nil_append, Nat.zero_add, List.drop_replicate, hn]
  by_cases hzero : (0 : UInt8) ∈ bs
  · rw [CStr.read_append_of_mem hzero]
  · rw [List.replicate_succ, CStr.read_of_free hzero]
    exact read_append_zero hzero _

/-- The page shows the escaped name if it has room, and writes behind its buffers otherwise. -/
theorem shownSsid_eq {buf : CStr} (h : buf.len < TMP_LEN) :
    shownSsid buf =
      let name := CStr.read (UserNvram.base64Decode buf.val TMP_LEN).2
      if name.len + name.val.countP uiSpecial < TMP_LEN then some (escaped uiSpecial name)
      else none := by
  have hlength : (UserNvram.base64Decode buf.val TMP_LEN).2.length < TMP_LEN := by
    have hle := UserNvram.base64Decode_length buf.val TMP_LEN
    change buf.val.length < TMP_LEN at h
    omega
  have hread := read_decoded hlength
  dsimp only
  rw [← escaped_len, shownSsid, uiParser]
  split_ifs with hroom
  · rw [parser_of_room, hread, Option.map_some]
    · refine congrArg some ?_
      rw [poke, List.take_zero, List.nil_append, CStr.read_stored_append]
    · rw [poke_length, List.length_replicate]
      rw [List.length_replicate]
      omega
    · rwa [hread]
  · rw [parser_of_full (by rw [hread]; exact not_lt.mp hroom), Option.map_none]

end EzpFirmware.Httpd
