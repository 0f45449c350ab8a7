import Mathlib.Data.UInt
import EzpFirmware.Bcclient.Credentials
import EzpFirmware.Lib.Ciphers
import EzpFirmware.Lib.Numerals
import EzpFirmware.Lib.Traced

/-! # What the decryption undoes, and where it writes

The sender encrypts a text block by block with TEA, masks every byte with the key
character and sends the result as lower-case hexadecimal text. `_to_decrypt_str` gives
the text back. It decrypts whole blocks in place, so it writes behind its output unless
the output is made of whole blocks.
-/
namespace EzpFirmware.Bcclient
open Lib

/-! ## Encryption -/

/-- A word of the key. -/
def Key.word (k : Key) (i : Fin 4) : UInt32 := Vector.get k i

/-- What a round adds to `v0`. -/
def teaLeft (k : Key) (v1 sum : UInt32) : UInt32 :=
  ((v1 <<< 4) + k.word 0) ^^^ (v1 + sum) ^^^ ((v1 >>> 5) + k.word 1)

/-- What a round adds to `v1`. -/
def teaRight (k : Key) (v0 sum : UInt32) : UInt32 :=
  ((v0 <<< 4) + k.word 2) ^^^ (v0 + sum) ^^^ ((v0 >>> 5) + k.word 3)

/-- TEA on the bytes of a block: 32 rounds, with a sum that starts at zero. -/
def teaEncrypt (k : Key) (block : List UInt8) : List UInt8 :=
  let v0 := UInt32.ofNat (ofLe (block.take 4))
  let v1 := UInt32.ofNat (ofLe ((block.drop 4).take 4))
  let r := (Feistel.encRound (teaLeft k) (teaRight k) 0x9e3779b9)^[32] (v0, v1, 0)
  leBytes 4 r.1.toNat ++ leBytes 4 r.2.1.toNat

/-- The encryption of a text: every block, then the mask. -/
def encryptStr (key : Key) (keyCharacter : UInt8) (plain : List UInt8) : List UInt8 :=
  ((List.range (plain.length / 8)).flatMap fun i => teaEncrypt key (block 8 plain i)).map
    (· ^^^ keyCharacter)

theorem teaEncrypt_length (k : Key) (b : List UInt8) : (teaEncrypt k b).length = 8 := by
  simp [teaEncrypt]

theorem teaDecrypt_length (k : Key) (b : List UInt8) : (teaDecrypt k b).length = 8 := by
  simp [teaDecrypt]

/-- The rounds of `tea_decrypt` undo those of the encryption. -/
theorem teaRound_eq (k : Key) :
    teaRound k = Feistel.decRound (teaLeft k) (teaRight k) 0x9e3779b9 := rfl

/-- A word is what its bytes say. -/
theorem ofNat_ofLe_leBytes (v : UInt32) : UInt32.ofNat (ofLe (leBytes 4 v.toNat)) = v := by
  have hlt := v.toNat_lt
  rw [ofLe_leBytes, Nat.mod_eq_of_lt (by omega), UInt32.ofNat_toNat]

/-- Four bytes are what their word says. -/
theorem leBytes_toNat_ofLe {l : List UInt8} (h : l.length = 4) :
    leBytes 4 (UInt32.ofNat (ofLe l)).toNat = l := by
  have hlt := ofLe_lt l
  rw [h] at hlt
  rw [UInt32.toNat_ofNat_of_lt' (by simpa [UInt32.size] using hlt)]
  conv_rhs => rw [← leBytes_ofLe l, h]

/-- `tea_decrypt` on two words. -/
theorem teaDecrypt_words (k : Key) (x y : UInt32) {r : UInt32 × UInt32 × UInt32}
    (hr : (teaRound k)^[32] (x, y, 0xC6EF3720) = r) :
    teaDecrypt k (leBytes 4 x.toNat ++ leBytes 4 y.toNat) =
      leBytes 4 r.1.toNat ++ leBytes 4 r.2.1.toNat := by
  have hright : ((leBytes 4 x.toNat ++ leBytes 4 y.toNat).drop 4).take 4 = leBytes 4 y.toNat := by
    rw [List.drop_left' (leBytes_length _ _), List.take_of_length_le (by simp)]
  rw [teaDecrypt, List.take_left' (leBytes_length _ _), hright, ofNat_ofLe_leBytes,
    ofNat_ofLe_leBytes, hr]

/-- A block comes back. -/
theorem teaDecrypt_teaEncrypt (k : Key) {b : List UInt8} (h : b.length = 8) :
    teaDecrypt k (teaEncrypt k b) = b := by
  have hsum : (32 : ℕ) • (0x9e3779b9 : UInt32) = 0xC6EF3720 := by decide
  obtain ⟨r, hr⟩ : ∃ r, (Feistel.encRound (teaLeft k) (teaRight k) 0x9e3779b9)^[32]
      (UInt32.ofNat (ofLe (b.take 4)), UInt32.ofNat (ofLe ((b.drop 4).take 4)), 0) = r := ⟨_, rfl⟩
  have hback := Feistel.decrypt_encrypt (teaLeft k) (teaRight k) 0x9e3779b9 hr
  rw [hsum, ← teaRound_eq] at hback
  have hfour : ((b.drop 4).take 4).length = 4 := by simp [h]
  rw [teaEncrypt, hr, teaDecrypt_words k _ _ hback, leBytes_toNat_ofLe (by simp [h]),
    leBytes_toNat_ofLe hfour, List.take_of_length_le (l := b.drop 4) (by simp [h]),
    List.take_append_drop]

/-! ## The hexadecimal text -/

theorem ascii2byte_digits : ∀ hi < 16, ∀ lo < 16,
    ascii2byte (lowerHex hi) (lowerHex lo) = UInt8.ofNat (16 * hi + lo) := by
  decide

/-- Two digits of the sender are read as their byte. -/
theorem ascii2byte_lowerHex (b : UInt8) :
    ascii2byte (lowerHex (b.toNat / 16)) (lowerHex (b.toNat % 16)) = b := by
  have hlt := b.toNat_lt
  have hsum : 16 * (b.toNat / 16) + b.toNat % 16 = b.toNat := Nat.div_add_mod _ _
  rw [ascii2byte_digits _ (by omega) _ (by omega), hsum, UInt8.ofNat_toNat]

theorem getDecryptOutputLength_hexText (bytes : List UInt8) :
    getDecryptOutputLength (hexText bytes) = bytes.length := by
  rw [getDecryptOutputLength, CStr.len, hexText, hexBytes_length]
  omega

/-- The loop over the digits reads the bytes that were sent. -/
theorem hexText_read (bytes : List UInt8) {i : ℕ} (hi : i < bytes.length) :
    ascii2byte ((hexText bytes).stored.getD (i * 2) 0) ((hexText bytes).stored.getD (i * 2 + 1) 0) =
      bytes[i] := by
  have hlen : (hexBytes bytes).length = 2 * bytes.length := hexBytes_length bytes
  obtain ⟨hhi, hlo⟩ := hexBytes_getElem? bytes i
  have hget : ∀ j < 2 * bytes.length, (hexText bytes).stored.getD j 0 =
      ((hexBytes bytes)[j]?).getD 0 := by
    intro j hj
    rw [← hlen] at hj
    rw [CStr.stored, hexText, List.getD_eq_getElem?_getD, List.getElem?_append_left hj]
  rw [hget _ (by omega), hget _ (by omega), Nat.mul_comm i 2, hhi, hlo,
    List.getElem?_eq_getElem hi]
  exact ascii2byte_lowerHex _

/-! ## Where `_to_decrypt_str` writes -/

/-- `_to_decrypt_str`, with every store: the zeroes, the bytes of the digits, the mask, and
the two words of each block. -/
def toDecryptStrTraced (key : Key) (keyCharacter : UInt8) (szInput : List UInt8)
    (nOutputLength : ℕ) (szOutput : List UInt8) : Traced UInt8 :=
  let o : Traced UInt8 := ⟨szOutput, []⟩
  let o := o.store 0 (List.replicate nOutputLength 0)
  let o := o.storeEach (fun i _ =>
    ascii2byte (szInput.getD (i * 2) 0) (szInput.getD (i * 2 + 1) 0)) 0 nOutputLength
  let o := o.storeEach (fun _ b => b ^^^ keyCharacter) 0 nOutputLength
  o.storeBlocks 8 (teaDecrypt key) ((nOutputLength + 7) / 8)

variable (key : Key) (c : UInt8) (szInput : List UInt8)

theorem decryptLoop_eq (n : ℕ) (mem : List UInt8) : decryptLoop key n mem =
    (List.range n).flatMap (fun i => teaDecrypt key (block 8 mem i)) ++ mem.drop (8 * n) := by
  induction n generalizing mem with
  | zero => simp [decryptLoop]
  | succ n ih =>
    have hnext : ∀ i, block 8 (mem.drop 8) i = block 8 mem (i + 1) := by
      intro i
      rw [block, block, List.drop_drop, Nat.mul_succ, Nat.add_comm]
    have hend : 8 + 8 * n = 8 * (n + 1) := by omega
    rw [decryptLoop, ih, List.range_succ_eq_map, List.flatMap_cons, List.flatMap_map,
      List.drop_drop, hend, List.append_assoc]
    simp only [hnext]
    simp [block]

/-- The memory before the loop over the blocks. -/
theorem masked_mem (n : ℕ) (out : List UInt8) :
    ((((⟨out, []⟩ : Traced UInt8).store 0 (List.replicate n 0)).storeEach (fun i _ =>
      ascii2byte (szInput.getD (i * 2) 0) (szInput.getD (i * 2 + 1) 0)) 0 n).storeEach
        (fun _ b => b ^^^ c) 0 n).mem =
      (List.range n).map (fun i =>
        ascii2byte (szInput.getD (i * 2) 0) (szInput.getD (i * 2 + 1) 0) ^^^ c) ++ out.drop n := by
  set o := (⟨out, []⟩ : Traced UInt8).store 0 (List.replicate n 0) with ho
  have hmem : o.mem = List.replicate n 0 ++ out.drop n := by
    simp [ho, poke]
  have hdrop : o.mem.drop n = out.drop n := by simp [hmem]
  have hlen : n ≤ o.mem.length := by simp [hmem]
  have hread := Traced.storeEach_mem (fun i _ =>
    ascii2byte (szInput.getD (i * 2) 0) (szInput.getD (i * 2 + 1) 0)) 0 hlen
  set o' := o.storeEach (fun i _ =>
    ascii2byte (szInput.getD (i * 2) 0) (szInput.getD (i * 2 + 1) 0)) 0 n with ho'
  have hlen' : n ≤ o'.mem.length := by simp [hread]
  rw [Traced.storeEach_mem _ _ hlen', hread]
  congr 1
  · apply List.map_congr_left
    intro i hi
    rw [List.mem_range] at hi
    simp [List.getD_eq_getElem?_getD, List.getElem?_append, hi]
  · simp [hdrop]

/-- The traced run leaves the memory that `toDecryptStr` describes. -/
theorem toDecryptStrTraced_mem {n : ℕ} {out : List UInt8} (hn : 8 * ((n + 7) / 8) ≤ out.length) :
    (toDecryptStrTraced key c szInput n out).mem = toDecryptStr key c szInput n (out.drop n) := by
  have hmasked := masked_mem c szInput n out
  have hlen := congrArg List.length hmasked
  simp only [List.length_append, List.length_map, List.length_range, List.length_drop] at hlen
  rw [toDecryptStrTraced, Traced.storeBlocks_mem (teaDecrypt_length key) (by omega), toDecryptStr,
    decryptLoop_eq, hmasked]

/-- The stores reach to the end of the last block. -/
theorem mem_toDecryptStrTraced_written {n p : ℕ} {out : List UInt8} :
    p ∈ (toDecryptStrTraced key c szInput n out).written ↔ p < 8 * ((n + 7) / 8) := by
  rw [toDecryptStrTraced, Traced.mem_storeBlocks_written (teaDecrypt_length key),
    Traced.mem_storeEach_written, Traced.mem_storeEach_written, Traced.mem_store_written]
  simp
  omega

/-- The loops over the digits and the mask give what was masked. -/
theorem hexText_masked (bytes : List UInt8) :
    ((List.range bytes.length).map fun i => ascii2byte ((hexText bytes).stored.getD (i * 2) 0)
      ((hexText bytes).stored.getD (i * 2 + 1) 0) ^^^ c) = bytes.map (· ^^^ c) := by
  apply List.ext_getElem
  · simp
  · intro i hi hi'
    rw [List.length_map] at hi'
    rw [List.getElem_map, List.getElem_range, hexText_read _ hi', List.getElem_map]

/-- The encrypted blocks of a text, before the mask. -/
def encryptBlocks (plain : List UInt8) : List UInt8 :=
  (List.range (plain.length / 8)).flatMap fun i => teaEncrypt key (block 8 plain i)

theorem encryptBlocks_length (plain : List UInt8) :
    (encryptBlocks key plain).length = 8 * (plain.length / 8) :=
  blocks_length fun _ _ => teaEncrypt_length key _

theorem encryptStr_length (plain : List UInt8) :
    (encryptStr key c plain).length = 8 * (plain.length / 8) := by
  rw [encryptStr, List.length_map]
  exact encryptBlocks_length key plain

/-- The mask taken off. -/
theorem encryptStr_unmask (plain : List UInt8) :
    (encryptStr key c plain).map (· ^^^ c) = encryptBlocks key plain := by
  have htwice : ((· ^^^ c) ∘ (· ^^^ c) : UInt8 → UInt8) = id := by
    funext b
    rw [Function.comp_apply, UInt8.xor_assoc, UInt8.xor_self, UInt8.xor_zero, id]
  rw [encryptStr, List.map_map, htwice, List.map_id, encryptBlocks]

/-- The loop over the blocks gives the text back. -/
theorem decryptLoop_encryptBlocks {plain : List UInt8} (h : 8 ∣ plain.length) (heap : List UInt8) :
    decryptLoop key (plain.length / 8) (encryptBlocks key plain ++ heap) = plain ++ heap := by
  have hlen := encryptBlocks_length key plain
  have hdiv : 8 * (plain.length / 8) = plain.length := Nat.mul_div_cancel' h
  have hblock : ∀ i ∈ List.range (plain.length / 8),
      teaDecrypt key (block 8 (encryptBlocks key plain ++ heap) i) = block 8 plain i := by
    intro i hi
    rw [List.mem_range] at hi
    have hfront : block 8 (encryptBlocks key plain ++ heap) i =
        block 8 (encryptBlocks key plain) i := by
      rw [block, block, List.drop_append_of_le_length (by omega),
        List.take_append_of_le_length (by rw [List.length_drop]; omega)]
    rw [hfront, encryptBlocks, block_flatMap (fun i _ => teaEncrypt_length key _) hi]
    exact teaDecrypt_teaEncrypt key (block_length hdiv.le hi)
  rw [decryptLoop_eq, List.flatMap_congr hblock, flatMap_block hdiv.le, hdiv,
    List.take_of_length_le le_rfl, List.drop_left' (by omega)]

/-- Every text of whole blocks comes back, and nothing behind it changes. -/
theorem toDecryptStr_encryptStr {plain : List UInt8} (h : 8 ∣ plain.length) (heap : List UInt8) :
    toDecryptStr key c (hexText (encryptStr key c plain)).stored plain.length heap =
      plain ++ heap := by
  have hlen : (encryptStr key c plain).length = plain.length := by
    rw [encryptStr_length, Nat.mul_div_cancel' h]
  have hmasked := hexText_masked c (encryptStr key c plain)
  rw [hlen, encryptStr_unmask] at hmasked
  have hblocks : (plain.length + 7) / 8 = plain.length / 8 := by omega
  rw [toDecryptStr, hmasked, hblocks, decryptLoop_encryptBlocks key h]

/-- Every text of whole blocks comes back under the key and the character, and the decryption
of `text` stays in its output. -/
def Decrypts (text : CStr) : Prop :=
  (∀ plain : List UInt8, 8 ∣ plain.length → ∀ out : List UInt8, plain.length ≤ out.length →
    (toDecryptStrTraced key c (hexText (encryptStr key c plain)).stored
      (getDecryptOutputLength (hexText (encryptStr key c plain))) out).mem =
        plain ++ out.drop plain.length) ∧
  ∀ out : List UInt8, ∀ p ∈ (toDecryptStrTraced key c text.stored
    (getDecryptOutputLength text) out).written, p < getDecryptOutputLength text

/-- `_to_decrypt_str` gives back what was encrypted. It stays in its output exactly when the
text stands for whole blocks. -/
theorem decrypts_iff (text : CStr) :
    Decrypts key c text ↔ 8 ∣ getDecryptOutputLength text := by
  constructor
  · rintro ⟨-, hin⟩
    -- The last byte of the last block.
    by_contra hpart
    have hlast := hin [] (8 * ((getDecryptOutputLength text + 7) / 8) - 1)
      ((mem_toDecryptStrTraced_written key c text.stored).mpr (by omega))
    omega
  · intro hwhole
    constructor
    · intro plain hplain out hout
      have hlen : getDecryptOutputLength (hexText (encryptStr key c plain)) = plain.length := by
        rw [getDecryptOutputLength_hexText, encryptStr_length, Nat.mul_div_cancel' hplain]
      rw [hlen, toDecryptStrTraced_mem key c _ (by omega), toDecryptStr_encryptStr key c hplain]
    · intro out p hp
      rw [mem_toDecryptStrTraced_written] at hp
      omega

/-- The output of one digit pair is one byte long, and a whole block is written. -/
theorem decrypts_not_oneByte :
    ¬ Decrypts (Vector.replicate _ 0) USERNAME_KEY (.ofString "00") := by
  rintro ⟨-, hin⟩
  have hseventh := hin [] 7 ((mem_toDecryptStrTraced_written _ _ _).mpr (by decide))
  revert hseventh
  decide

end EzpFirmware.Bcclient
