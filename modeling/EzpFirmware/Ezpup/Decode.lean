import EzpFirmware.Lib.Ciphers
import EzpFirmware.Lib.Streams

/-! # Encrypted packages

The host encrypts a firmware in pieces of 512 bytes. The router decrypts it in
pieces of 2048 bytes, but into an array of 512.
-/
namespace EzpFirmware.Ezpup
open Lib

/-! ## Counter mode -/

/-- `symmetric_CTR`, as far as it changes. -/
structure Ctr where
  blocklen : ℕ
  padlen : ℕ
  ctr : List UInt8
  pad : List UInt8

/-- The little-endian counter goes up by one. -/
def increment : List UInt8 → List UInt8
  | [] => []
  | b :: ctr => if b + 1 ≠ 0 then (b + 1) :: ctr else 0 :: increment ctr

section
variable (ecbEncrypt : List UInt8 → List UInt8)

/-- `ctr_start`, with the cipher under the scheduled key. -/
def ctrStart (count : List UInt8) : Ctr := ⟨count.length, 0, count, ecbEncrypt count⟩

/-- The next byte of the pad. -/
def nextPad (s : Ctr) : UInt8 × Ctr :=
  let s :=
    if s.padlen = s.blocklen then
      { s with padlen := 0, ctr := increment s.ctr, pad := ecbEncrypt (increment s.ctr) }
    else s
  (s.pad.getD s.padlen 0, { s with padlen := s.padlen + 1 })

/-- `ctr_encrypt`. -/
def ctrEncrypt (pt : List UInt8) (ctr : Ctr) : List UInt8 × Ctr :=
  addStream (nextPad ecbEncrypt) pt ctr

/-- `ctr_decrypt`. -/
def ctrDecrypt (ct : List UInt8) (ctr : Ctr) : List UInt8 × Ctr := ctrEncrypt ecbEncrypt ct ctr

/-! ## The two programs -/

/-- `block_length` of `des3_desc`. -/
def IV_SIZE : ℕ := 8

/-- `sizeof(inbuf)` of the encrypting program. -/
def ENCRYPT_INBUF : ℕ := 512

/-- `sizeof(ciphertext)` of the encrypting program. -/
def ENCRYPT_CIPHERTEXT : ℕ := 512

/-- `sizeof(inbuf)` of `decode`. -/
def DECODE_INBUF : ℕ := 2048

/-- `sizeof(plaintext)` of `decode`. -/
def DECODE_PLAINTEXT : ℕ := 512

theorem ENCRYPT_INBUF_pos : 0 < ENCRYPT_INBUF := by decide

theorem DECODE_INBUF_pos : 0 < DECODE_INBUF := by decide

/-- How a program goes wrong: it gives up, or writes outside of an array. -/
inductive Fault where
  | exit
  | outside
  deriving DecidableEq

/-- The loop of both programs over the pieces of a file: they read `inbuf` bytes, which a function
takes to an array of `room` bytes, and go on behind a full piece. -/
def pieceLoop (inbuf room : ℕ) (crypt : List UInt8 → Ctr → List UInt8 × Ctr) (hpos : 0 < inbuf)
    (wants : ℕ → ℕ → ℕ) (fdin : List UInt8) (ctr : Ctr) (fdout : List UInt8) (wlen : ℕ) :
    Except Fault (List UInt8 × ℕ) :=
  let piece := gather inbuf (wants 0) fdin
  if room < piece.length then .error .outside
  else
    let r := crypt piece ctr
    if piece.length = inbuf then
      pieceLoop inbuf room crypt hpos (fun k => wants (k + 1)) (fdin.drop inbuf) r.2 (fdout ++ r.1)
        (wlen + piece.length)
    else .ok (fdout ++ r.1, wlen + piece.length)
termination_by fdin.length
decreasing_by
  rename_i hfull
  have hlen : (gather inbuf (wants 0) fdin).length = inbuf := hfull
  rw [gather_eq, List.length_take] at hlen
  rw [List.length_drop]
  omega

/-- The encrypting part of `main`: the file that is written, with a given IV. -/
def encrypt (wants : ℕ → ℕ → ℕ) (iv fdin : List UInt8) : Except Fault (List UInt8) :=
  (pieceLoop ENCRYPT_INBUF ENCRYPT_CIPHERTEXT (ctrEncrypt ecbEncrypt) ENCRYPT_INBUF_pos
    wants fdin (ctrStart ecbEncrypt iv) iv 0).map Prod.fst

/-- `decode`: what is written to `fdout`, and the number that is returned. -/
def decode (wants : ℕ → ℕ → ℕ) (fdin : List UInt8) : Except Fault (List UInt8 × ℕ) :=
  let iv := gather IV_SIZE (wants 0) fdin
  if iv.length ≠ IV_SIZE then .error .exit
  else
    pieceLoop DECODE_INBUF DECODE_PLAINTEXT (ctrDecrypt ecbEncrypt) DECODE_INBUF_pos
      (fun k => wants (k + 1)) (fdin.drop IV_SIZE) (ctrStart ecbEncrypt iv) [] 0

/-- A package is decrypted to the file that was encrypted. -/
def Decrypts (wants wants' : ℕ → ℕ → ℕ) (iv content : List UInt8) : Prop :=
  ∃ package, encrypt ecbEncrypt wants iv content = .ok package ∧
    decode ecbEncrypt wants' package = .ok (content, content.length)

end

/-! ## The encrypting program -/

section
variable {ecbEncrypt : List UInt8 → List UInt8}

/-- With room for whole pieces the loop takes the file as one text. -/
theorem pieceLoop_eq {inbuf room : ℕ} (hpos : 0 < inbuf) (hroom : inbuf ≤ room)
    (wants : ℕ → ℕ → ℕ) (fdin : List UInt8) (ctr : Ctr) (fdout : List UInt8) (wlen : ℕ) :
    pieceLoop inbuf room (ctrEncrypt ecbEncrypt) hpos wants fdin ctr fdout wlen =
      .ok (fdout ++ (ctrEncrypt ecbEncrypt fdin ctr).1, wlen + fdin.length) := by
  induction wants, fdin, ctr, fdout, wlen using
      pieceLoop.induct inbuf room (ctrEncrypt ecbEncrypt) hpos with
  | case1 wants fdin ctr fdout wlen piece hover =>
    have hover' : room < (gather inbuf (wants 0) fdin).length := hover
    rw [gather_eq, List.length_take] at hover'
    omega
  | case2 wants fdin ctr fdout wlen piece hfits r hfull ih =>
    have hpiece : piece = fdin.take inbuf := gather_eq _ _ _
    have hr : r = ctrEncrypt ecbEncrypt (fdin.take inbuf) ctr :=
      congrArg (ctrEncrypt ecbEncrypt · ctr) hpiece
    have hsplit := addStream_append (nextPad ecbEncrypt) (fdin.take inbuf) (fdin.drop inbuf) ctr
    rw [List.take_append_drop] at hsplit
    have hlen : piece.length + (fdin.drop inbuf).length = fdin.length := by
      rw [hpiece, ← List.length_append, List.take_append_drop]
    rw [pieceLoop, if_neg hfits, if_pos hfull]
    refine ih.trans ?_
    rw [hr, Nat.add_assoc, hlen, List.append_assoc, ctrEncrypt, ctrEncrypt, ctrEncrypt, hsplit]
  | case3 wants fdin ctr fdout wlen piece hfits hshort =>
    have hpiece : piece = fdin.take inbuf := gather_eq _ _ _
    have hwhole : piece = fdin := by
      rw [hpiece, List.take_eq_self_iff]
      rw [hpiece, List.length_take] at hshort
      omega
    rw [pieceLoop, if_neg hfits, if_neg hshort]
    change Except.ok (fdout ++ (ctrEncrypt ecbEncrypt piece ctr).1, wlen + piece.length) = _
    rw [hwhole]

/-- The package holds the IV and then the content, added to the stream. -/
theorem encrypt_eq (wants : ℕ → ℕ → ℕ) (iv content : List UInt8) :
    encrypt ecbEncrypt wants iv content =
      .ok (iv ++ (ctrEncrypt ecbEncrypt content (ctrStart ecbEncrypt iv)).1) := by
  rw [encrypt, pieceLoop_eq ENCRYPT_INBUF_pos (show ENCRYPT_INBUF ≤ ENCRYPT_CIPHERTEXT from le_rfl)]
  rfl

/-! ## The decrypting program -/

/-- `decode` on a package whose IV is read whole. -/
theorem decode_package (wants : ℕ → ℕ → ℕ) {iv : List UInt8} (hiv : iv.length = IV_SIZE)
    (text : List UInt8) :
    decode ecbEncrypt wants (iv ++ text) =
      pieceLoop DECODE_INBUF DECODE_PLAINTEXT (ctrDecrypt ecbEncrypt) DECODE_INBUF_pos
        (fun k => wants (k + 1)) text (ctrStart ecbEncrypt iv) [] 0 := by
  have htake : gather IV_SIZE (wants 0) (iv ++ text) = iv := by
    rw [gather_eq, ← hiv, List.take_left]
  have hdrop : (iv ++ text).drop IV_SIZE = text := by rw [← hiv, List.drop_left]
  simp only [decode]
  rw [htake, hdrop, if_neg (not_not.mpr hiv)]

/-- A first piece that is too long for `plaintext`. -/
theorem pieceLoop_outside (wants : ℕ → ℕ → ℕ) {text : List UInt8}
    (hlong : DECODE_PLAINTEXT < text.length) (ctr : Ctr) (fdout : List UInt8) (wlen : ℕ) :
    pieceLoop DECODE_INBUF DECODE_PLAINTEXT (ctrDecrypt ecbEncrypt) DECODE_INBUF_pos wants text
      ctr fdout wlen = .error .outside := by
  have hover : DECODE_PLAINTEXT < (gather DECODE_INBUF (wants 0) text).length := by
    rw [gather_eq, List.length_take]
    exact lt_min (by decide) hlong
  rw [pieceLoop, if_pos hover]

/-- A text that fits `plaintext` is a single short piece. -/
theorem pieceLoop_fits (wants : ℕ → ℕ → ℕ) {text : List UInt8}
    (hfits : text.length ≤ DECODE_PLAINTEXT) (ctr : Ctr) :
    pieceLoop DECODE_INBUF DECODE_PLAINTEXT (ctrDecrypt ecbEncrypt) DECODE_INBUF_pos wants text
      ctr [] 0 = .ok ((ctrDecrypt ecbEncrypt text ctr).1, text.length) := by
  have hshort : text.length < DECODE_INBUF := lt_of_le_of_lt hfits (by decide)
  have hpiece : gather DECODE_INBUF (wants 0) text = text := by
    rw [gather_eq, List.take_of_length_le hshort.le]
  rw [pieceLoop, hpiece, if_neg (not_lt.mpr hfits)]
  simp [hshort.ne]

/-- A long content makes `decode` write behind its array. -/
theorem not_decrypts (wants wants' : ℕ → ℕ → ℕ) {iv content : List UInt8}
    (hiv : iv.length = IV_SIZE) (hlong : DECODE_PLAINTEXT < content.length) :
    ¬ Decrypts ecbEncrypt wants wants' iv content := by
  rintro ⟨package, hpackage, hdecode⟩
  rw [encrypt_eq] at hpackage
  cases hpackage
  rw [decode_package wants' hiv, pieceLoop_outside] at hdecode
  · exact absurd hdecode (by simp)
  · rwa [ctrEncrypt, addStream_length]

/-- **A package is decrypted, with every chunk within its array, exactly if the content is not
longer than `plaintext`.** -/
theorem upgrade_decrypts_iff (wants wants' : ℕ → ℕ → ℕ) {iv : List UInt8} (hiv : iv.length = IV_SIZE)
    (content : List UInt8) :
    Decrypts ecbEncrypt wants wants' iv content ↔ content.length ≤ DECODE_PLAINTEXT := by
  constructor
  · intro hdec
    by_contra hlong
    exact not_decrypts wants wants' hiv (not_le.mp hlong) hdec
  · intro hfits
    refine ⟨_, encrypt_eq wants iv content, ?_⟩
    have hlen := addStream_length (nextPad ecbEncrypt) content (ctrStart ecbEncrypt iv)
    rw [ctrEncrypt, decode_package wants' hiv, pieceLoop_fits _ (hlen.trans_le hfits), hlen]
    rw [ctrDecrypt, ctrEncrypt, addStream_addStream]

end

/-- The identity in place of the cipher. -/
theorem decrypts_three :
    Decrypts id (fun _ _ => 1) (fun _ _ => 5) (List.replicate 8 0) [1, 2, 3] ↔
      [(1 : UInt8), 2, 3].length ≤ DECODE_PLAINTEXT :=
  upgrade_decrypts_iff _ _ (by decide) _

/-- One byte more than the array has room for. -/
theorem zeros_outside :
    ¬ Decrypts id (fun _ _ => 512) (fun _ _ => 2048) (List.replicate 8 0)
      (List.replicate 513 0) := by
  apply not_decrypts
  · rfl
  · rw [List.length_replicate]
    decide

end EzpFirmware.Ezpup
