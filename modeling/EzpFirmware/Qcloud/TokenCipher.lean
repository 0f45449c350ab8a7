import EzpFirmware.Lib.Numerals
import EzpFirmware.Qcloud.Setters
import EzpFirmware.Qcloud.Request

/-! # Encrypted tokens

A token is encrypted with padding and kept as hexadecimal text. The cipher of OpenSSL is a
parameter. A text is decrypted in place, in the array of a token.
-/
namespace EzpFirmware.Qcloud
open Lib UserNvram

/-- AES-256 in CBC mode under one key, as `EVP_EncryptUpdate`, `EVP_DecryptUpdate` and their
final calls run it. Padding fills the last block, and decryption holds the last block back until it
has seen the padding. -/
structure Cipher where
  encrypt : List UInt8 → List UInt8
  decrypt : List UInt8 → List UInt8
  decrypt_encrypt : ∀ text, decrypt (encrypt text) = text
  encrypt_length : ∀ text, (encrypt text).length = 16 * (text.length / 16 + 1)
  decrypt_length_le : ∀ data, (decrypt data).length ≤ data.length - 1

/-- The macro `A2I`. -/
def a2i (c : UInt8) : UInt8 :=
  if 0x61 ≤ c ∧ c ≤ 0x7a then c - 0x61 + 10
  else if 0x41 ≤ c ∧ c ≤ 0x5a then c - 0x41 + 10
  else c - 0x30

/-- `util_convert_char_to_hex`: the first `n` bytes. -/
def utilConvertCharToHex (str : List UInt8) (n : ℕ) : List UInt8 :=
  (List.range n).map fun i => a2i (str.getD (2 * i) 0) <<< 4 ||| a2i (str.getD (2 * i + 1) 0)

theorem utilConvertCharToHex_length (str : List UInt8) (n : ℕ) :
    (utilConvertCharToHex str n).length = n := by
  simp [utilConvertCharToHex]

/-- `util_aes_encrypt_str`. There is no text for an empty one. -/
def utilAesEncryptStr (cipher : Cipher) (src : CStr) : Option CStr :=
  if src.len = 0 then none else some (hexText (cipher.encrypt src.val))

/-- `util_aes_decrypt_str`, on the array of a token. -/
def utilAesDecryptStr (cipher : Cipher) (strBuff : List UInt8) (buffSize : ℕ) : List UInt8 :=
  let str := CStr.read strBuff
  if str.len = 0 ∨ buffSize = 0 then poke strBuff 0 [0]
  else
    let strBuff := List.replicate buffSize 0 ++ strBuff.drop buffSize
    let plainText := cipher.decrypt (utilConvertCharToHex str.stored (str.len / 2))
    if 0 < plainText.length ∧ plainText.length < buffSize then
      poke (strncpy strBuff plainText plainText.length) plainText.length [0]
    else strBuff

/-! ## Digits -/

theorem a2i_lowerHex : ∀ hi < 16, ∀ lo < 16,
    a2i (lowerHex hi) <<< 4 ||| a2i (lowerHex lo) = UInt8.ofNat (16 * hi + lo) := by
  decide

theorem lowerHex_plain : ∀ n < 16, lowerHex n ≠ CARET ∧ lowerHex n ≠ NL ∧ lowerHex n ≠ QUOTE := by
  decide

/-- Hexadecimal text can stand in the record. -/
theorem hexText_plain (bytes : List UInt8) : Plain (hexText bytes) := by
  have hdigit : ∀ b ∈ hexBytes bytes, ∃ n < 16, b = lowerHex n := by
    intro b hb
    obtain ⟨x, -, hx⟩ := List.mem_flatMap.mp hb
    have hlt := x.toNat_lt
    rcases List.mem_pair.mp hx with rfl | rfl
    · exact ⟨_, by omega, rfl⟩
    · exact ⟨_, by omega, rfl⟩
  constructor
  · intro h
    obtain ⟨n, hn, heq⟩ := hdigit _ h
    exact (lowerHex_plain n hn).1 heq.symm
  · intro h
    obtain ⟨n, hn, heq⟩ := hdigit _ h
    exact (lowerHex_plain n hn).2.1 heq.symm
  · intro h
    obtain ⟨n, hn, heq⟩ := hdigit _ h
    exact (lowerHex_plain n hn).2.2 heq.symm

/-- The digits are read back. -/
theorem utilConvertCharToHex_hexText (bytes : List UInt8) :
    utilConvertCharToHex (hexText bytes).stored ((hexText bytes).len / 2) = bytes := by
  have hlen : (hexText bytes).len / 2 = bytes.length := by
    rw [CStr.len, hexText, hexBytes_length]
    omega
  rw [hlen, utilConvertCharToHex]
  apply List.ext_getElem
  · simp
  · intro i hi hi'
    have hbytes : (hexBytes bytes).length = 2 * bytes.length := hexBytes_length bytes
    obtain ⟨hhi, hlo⟩ := hexBytes_getElem? bytes i
    have hget : ∀ j < (hexBytes bytes).length, (hexText bytes).stored.getD j 0 =
        ((hexBytes bytes)[j]?).getD 0 := by
      intro j hj
      rw [CStr.stored, hexText, List.getD_eq_getElem?_getD, List.getElem?_append_left hj]
    have hlt := bytes[i].toNat_lt
    have hsum : 16 * (bytes[i].toNat / 16) + bytes[i].toNat % 16 = bytes[i].toNat :=
      Nat.div_add_mod _ _
    rw [List.getElem_map, List.getElem_range, hget _ (by omega), hget _ (by omega), hhi, hlo,
      List.getElem?_eq_getElem hi']
    simp only [Option.map_some, Option.getD_some]
    rw [a2i_lowerHex _ (by omega) _ (by omega), hsum, UInt8.ofNat_toNat]

/-! ## Decryption in place -/

/-- A text behind itself in its array. -/
theorem read_poke_strncpy {buf text : List UInt8} (htext : (0 : UInt8) ∉ text) :
    CStr.read (poke (strncpy buf text text.length) text.length [0]) = ⟨text, htext⟩ := by
  have hread : CStr.read text = ⟨text, htext⟩ := CStr.read_val ⟨text, htext⟩
  have hcopy : strncpy buf text text.length = text ++ buf.drop text.length := by
    simp [strncpy, hread]
  rw [hcopy, poke, List.take_left]
  exact CStr.read_stored_append ⟨text, htext⟩ _

/-- The text of an encrypted token is decrypted to the token. -/
theorem utilAesDecryptStr_encrypted (cipher : Cipher) {token : CStr} (hne : token.len ≠ 0)
    {strBuff : List UInt8} (hbuf : CStr.read strBuff = hexText (cipher.encrypt token.val))
    {buffSize : ℕ} (hsize : token.len < buffSize) :
    CStr.read (utilAesDecryptStr cipher strBuff buffSize) = token := by
  have hlen : (hexText (cipher.encrypt token.val)).len ≠ 0 := by
    rw [CStr.len, hexText, hexBytes_length, cipher.encrypt_length]
    omega
  have hstart : ¬ ((hexText (cipher.encrypt token.val)).len = 0 ∨ buffSize = 0) := by omega
  have hfits : 0 < token.val.length ∧ token.val.length < buffSize :=
    ⟨Nat.pos_of_ne_zero hne, hsize⟩
  rw [utilAesDecryptStr]
  simp only [hbuf, if_neg hstart, utilConvertCharToHex_hexText, cipher.decrypt_encrypt,
    if_pos hfits]
  exact read_poke_strncpy token.property

/-- What is decrypted is shorter than half of the text. -/
theorem utilAesDecryptStr_len (cipher : Cipher) (strBuff : List UInt8) (buffSize : ℕ) :
    (CStr.read (utilAesDecryptStr cipher strBuff buffSize)).len ≤
      (CStr.read strBuff).len / 2 - 1 := by
  have hend : ∀ xs rest : List UInt8, (CStr.read (xs ++ 0 :: rest)).len ≤ xs.length := by
    intro xs rest
    rw [List.append_cons, CStr.read_append_of_mem (by simp)]
    have hlt := CStr.read_len_lt (m := xs ++ [0]) (by simp)
    simpa [Nat.lt_succ_iff] using hlt
  simp only [utilAesDecryptStr]
  split
  case isTrue => exact (hend [] _).trans (Nat.zero_le _)
  case isFalse hstart =>
    split
    case isTrue hplain =>
      have hdata := cipher.decrypt_length_le
        (utilConvertCharToHex (CStr.read strBuff).stored ((CStr.read strBuff).len / 2))
      rw [utilConvertCharToHex_length] at hdata
      rw [poke, List.append_assoc]
      exact (hend _ _).trans ((List.length_take_le _ _).trans hdata)
    case isFalse =>
      obtain ⟨n, hn⟩ : ∃ n, buffSize = n + 1 := Nat.exists_eq_succ_of_ne_zero (by tauto)
      rw [hn, List.replicate_succ]
      exact (hend [] _).trans (Nat.zero_le _)

end EzpFirmware.Qcloud
