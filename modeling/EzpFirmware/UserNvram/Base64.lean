import EzpFirmware.Lib.CString

/-! # Base64

Bytes outside the alphabet are skipped wherever they stand, and each `=` takes
one byte from all groups of four that end behind it.
-/
namespace EzpFirmware.UserNvram
open Lib

/-- The answers of the coder. -/
inductive Crypt where
  | CRYPT_OK
  | CRYPT_BUFFER_OVERFLOW
  | CRYPT_INVALID_PACKET
  deriving DecidableEq

/-- The table `map`: 255 for a byte that is skipped, 254 for `=`. -/
def codeOf (b : UInt8) : ℕ :=
  let n := b.toNat
  if 0x41 ≤ n ∧ n ≤ 0x5a then n - 0x41
  else if 0x61 ≤ n ∧ n ≤ 0x7a then n - 0x61 + 26
  else if 0x30 ≤ n ∧ n ≤ 0x39 then n - 0x30 + 52
  else if n = 0x2b then 62
  else if n = 0x2f then 63
  else if n = 0x3d then 254
  else 255

/-- The bytes of a full group. -/
def groupBytes (t : ℕ) (g : ℤ) : List UInt8 :=
  UInt8.ofNat (t / 65536) :: (if g > 1 then [UInt8.ofNat (t / 256)] else []) ++
    (if g > 2 then [UInt8.ofNat t] else [])

/-- The loop of `base64_decode`. `z + g` is compared as an unsigned number, and is huge when it is
negative. -/
def decodeLoop (outlen : ℕ) : List UInt8 → ℕ → ℕ → ℤ → List UInt8 → Crypt × List UInt8
  | [], _, y, _, out => (if y ≠ 0 then .CRYPT_INVALID_PACKET else .CRYPT_OK, out)
  | b :: rest, t, y, g, out =>
    if codeOf b = 255 then decodeLoop outlen rest t y g out
    else
      let g := if codeOf b = 254 then g - 1 else g
      let t := t * 64 + if codeOf b = 254 then 0 else codeOf b
      if y + 1 ≠ 4 then decodeLoop outlen rest t (y + 1) g out
      else if out.length + g < 0 ∨ (outlen : ℤ) < out.length + g then (.CRYPT_BUFFER_OVERFLOW, out)
      else decodeLoop outlen rest 0 0 g (out ++ groupBytes t g)

/-- `base64_decode`: the answer, and the bytes that were written from `out` on. The length is given
back only with `CRYPT_OK`. -/
def base64Decode (inp : List UInt8) (outlen : ℕ) : Crypt × List UInt8 :=
  decodeLoop outlen inp 0 0 3 []

example : base64Decode (Lib.CStr.ofString "YWRtaW46cHc=").val 256 =
    (.CRYPT_OK, (Lib.CStr.ofString "admin:pw").val) := by decide

/-! ## One character -/

/-- What a character adds to its group. -/
def valueOf (b : UInt8) : ℕ := if codeOf b = 254 then 0 else codeOf b

/-- How many bytes it takes from its group and from those behind. -/
def padOf (b : UInt8) : ℕ := if codeOf b = 254 then 1 else 0

section
variable {outlen t y : ℕ} {g : ℤ} {b : UInt8} {rest out : List UInt8}

theorem decodeLoop_skip (hb : codeOf b = 255) :
    decodeLoop outlen (b :: rest) t y g out = decodeLoop outlen rest t y g out := by
  rw [decodeLoop, if_pos hb]

/-- A character that does not complete a group. -/
theorem decodeLoop_symbol (hb : codeOf b ≠ 255) (hy : y + 1 ≠ 4) :
    decodeLoop outlen (b :: rest) t y g out =
      decodeLoop outlen rest (t * 64 + valueOf b) (y + 1) (g - padOf b) out := by
  rw [decodeLoop, if_neg hb, valueOf, padOf]
  dsimp only
  rw [if_pos hy]
  by_cases hpad : codeOf b = 254 <;> simp [hpad]

/-- A character that completes one. -/
theorem decodeLoop_fourth (hb : codeOf b ≠ 255) :
    decodeLoop outlen (b :: rest) t 3 g out =
      if out.length + (g - padOf b) < 0 ∨ (outlen : ℤ) < out.length + (g - padOf b) then
        (.CRYPT_BUFFER_OVERFLOW, out)
      else decodeLoop outlen rest 0 0 (g - padOf b)
        (out ++ groupBytes (t * 64 + valueOf b) (g - padOf b)) := by
  rw [decodeLoop, if_neg hb, valueOf, padOf]
  dsimp only
  rw [if_neg (by decide)]
  by_cases hpad : codeOf b = 254 <;> simp [hpad]

end

/-! ## Lengths -/

theorem groupBytes_length_le (t : ℕ) (g : ℤ) : (groupBytes t g).length ≤ 3 := by
  unfold groupBytes
  split_ifs <;> simp

theorem decodeLoop_length (outlen : ℕ) (inp : List UInt8) (t y : ℕ) (g : ℤ) (out : List UInt8) :
    (decodeLoop outlen inp t y g out).2.length * 4 ≤ (inp.length + y) * 3 + out.length * 4 := by
  induction inp generalizing t y g out with
  | nil =>
    rw [decodeLoop]
    dsimp only
    omega
  | cons b rest ih =>
    rw [decodeLoop, List.length_cons]
    dsimp only
    generalize (if codeOf b = 254 then g - 1 else g) = g'
    generalize (t * 64 + if codeOf b = 254 then 0 else codeOf b) = t'
    split_ifs with h255 hy hover
    · exact (ih t y g out).trans (by omega)
    · exact (ih t' (y + 1) g' out).trans (by omega)
    · dsimp only
      omega
    · have hgroup := groupBytes_length_le t' g'
      have hrest := ih 0 0 g' (out ++ groupBytes t' g')
      rw [List.length_append] at hrest
      omega

/-- Four bytes of the text give at most three. -/
theorem base64Decode_length (inp : List UInt8) (outlen : ℕ) :
    (base64Decode inp outlen).2.length * 4 ≤ inp.length * 3 := by
  have h := decodeLoop_length outlen inp 0 0 3 []
  simpa [base64Decode] using h

/-! ## Encoding and decoding

Three bytes become four characters, and what is left at the end is filled up
with `=`. The decoder counts the `=` to know how many bytes the last group has.
-/

/-- `codes`. -/
def CODES : List UInt8 :=
  (CStr.ofString "ABCDEFGHIJKLMNOPQRSTUVWXYZabcdefghijklmnopqrstuvwxyz0123456789+/").val

/-- `'='`. -/
def PAD : UInt8 := 0x3d

/-- `codes[n & 0x3F]`. -/
def codeAt (n : ℕ) : UInt8 := CODES.getD (n % 64) 0

/-- The characters for the bytes of `in`: those of the loop, and behind them the padded ones. -/
def encodeLoop : List UInt8 → List UInt8
  | [] => []
  | [a] => [codeAt (a.toNat / 4), codeAt (a.toNat % 4 * 16), PAD, PAD]
  | [a, b] => [codeAt (a.toNat / 4), codeAt (a.toNat % 4 * 16 + b.toNat / 16),
      codeAt (b.toNat % 16 * 4), PAD]
  | a :: b :: c :: inp =>
    codeAt (a.toNat / 4) :: codeAt (a.toNat % 4 * 16 + b.toNat / 16) ::
      codeAt (b.toNat % 16 * 4 + c.toNat / 64) :: codeAt c.toNat :: encodeLoop inp

/-- `base64_encode`: the answer, the bytes that were written from `out` on, and `*outlen`. -/
def base64Encode (inp : List UInt8) (outlen : ℕ) : Crypt × List UInt8 × ℕ :=
  let len2 := 4 * ((inp.length + 2) / 3)
  if outlen < len2 + 1 then (.CRYPT_BUFFER_OVERFLOW, [], outlen)
  else (.CRYPT_OK, encodeLoop inp ++ [0], (encodeLoop inp).length)

/-- `*outlen` after `base64_decode`. -/
def decodedLen (inp : List UInt8) (outlen : ℕ) : ℕ :=
  match base64Decode inp outlen with
  | (.CRYPT_OK, out) => out.length
  | _ => outlen

example : base64Encode (CStr.ofString "admin:pw").val 13 =
    (.CRYPT_OK, (CStr.ofString "YWRtaW46cHc=").stored, 12) := by decide

section
variable {outlen t y : ℕ} {g : ℤ} {v w : ℕ} {rest out x : List UInt8}

/-! ## The alphabet -/

theorem codes_spec : ∀ n < 64, codeAt n ∈ CODES ∧ codeOf (codeAt n) = n := by
  decide +kernel

theorem codeAt_mod (n : ℕ) : codeAt n = codeAt (n % 64) := by
  rw [codeAt, codeAt, Nat.mod_mod]

theorem codeAt_mem (n : ℕ) : codeAt n ∈ CODES := by
  rw [codeAt_mod]
  exact (codes_spec _ (Nat.mod_lt n (by decide))).1

@[simp] theorem codeOf_codeAt (n : ℕ) : codeOf (codeAt n) = n % 64 := by
  rw [codeAt_mod]
  exact (codes_spec _ (Nat.mod_lt n (by decide))).2

/-! ## What the encoder writes -/

theorem encodeLoop_length (x : List UInt8) : (encodeLoop x).length = 4 * ((x.length + 2) / 3) := by
  induction x using encodeLoop.induct with
  | case1 => rfl
  | case2 a => simp [encodeLoop]
  | case3 a b => simp [encodeLoop]
  | case4 a b c inp ih =>
    simp only [encodeLoop, List.length_cons, ih]
    omega

theorem encodeLoop_mem (x : List UInt8) : ∀ b ∈ encodeLoop x, b ∈ CODES ∨ b = PAD := by
  induction x using encodeLoop.induct with
  | case1 => simp [encodeLoop]
  | case2 a => simp [encodeLoop, codeAt_mem]
  | case3 a b => simp [encodeLoop, codeAt_mem]
  | case4 a b c inp ih =>
    intro d hd
    simp only [encodeLoop, List.mem_cons] at hd
    rcases hd with rfl | rfl | rfl | rfl | hd
    · exact .inl (codeAt_mem _)
    · exact .inl (codeAt_mem _)
    · exact .inl (codeAt_mem _)
    · exact .inl (codeAt_mem _)
    · exact ih d hd

/-! ## What the decoder reads -/

theorem symbol_codeAt (v : ℕ) :
    codeOf (codeAt v) ≠ 255 ∧ valueOf (codeAt v) = v % 64 ∧ padOf (codeAt v) = 0 := by
  have hlt : v % 64 < 64 := Nat.mod_lt v (by decide)
  have hpad : v % 64 ≠ 254 := by omega
  rw [valueOf, padOf, codeOf_codeAt, if_neg hpad, if_neg hpad]
  exact ⟨by omega, rfl, rfl⟩

theorem decodeLoop_code (hy : y + 1 ≠ 4) : decodeLoop outlen (codeAt v :: rest) t y g out =
    decodeLoop outlen rest (t * 64 + v % 64) (y + 1) g out := by
  obtain ⟨hb, hvalue, hpad⟩ := symbol_codeAt v
  rw [decodeLoop_symbol hb hy, hvalue, hpad]
  simp

theorem decodeLoop_pad (hy : y + 1 ≠ 4) : decodeLoop outlen (PAD :: rest) t y g out =
    decodeLoop outlen rest (t * 64) (y + 1) (g - 1) out :=
  decodeLoop_symbol (by decide) hy

/-- The fourth character of a group without `=`. -/
theorem decodeLoop_lastCode (hfit : out.length + 3 ≤ outlen) :
    decodeLoop outlen (codeAt v :: rest) t 3 3 out =
      decodeLoop outlen rest 0 0 3 (out ++ groupBytes (t * 64 + v % 64) 3) := by
  obtain ⟨hb, hvalue, hpad⟩ := symbol_codeAt v
  rw [decodeLoop_fourth hb, hvalue, hpad, if_neg (by omega)]
  simp

/-- The last `=` of a group, with `g - 1` bytes. -/
theorem decodeLoop_lastPad (hg : 1 ≤ g - 1) (hfit : out.length + (g - 1) ≤ outlen) :
    decodeLoop outlen (PAD :: rest) t 3 g out =
      decodeLoop outlen rest 0 0 (g - 1) (out ++ groupBytes (t * 64) (g - 1)) := by
  have hpad : padOf PAD = 1 := by decide
  rw [decodeLoop_fourth (by decide), hpad, Int.natCast_one, if_neg (by omega)]
  rfl

theorem ofNat_eq {b : UInt8} {n : ℕ} (h : n % 256 = b.toNat) : UInt8.ofNat n = b := by
  apply UInt8.toNat_inj.mp
  rw [UInt8.toNat_ofNat', h]

/-- The bytes that went into a group come out of it. -/
theorem decodeLoop_encodeLoop (x : List UInt8) (hfit : out.length + x.length ≤ outlen) :
    decodeLoop outlen (encodeLoop x) 0 0 3 out = (.CRYPT_OK, out ++ x) := by
  induction x using encodeLoop.induct generalizing out with
  | case1 =>
    rw [encodeLoop, decodeLoop, List.append_nil]
    rfl
  | case2 a =>
    have ha := a.toNat_lt
    rw [encodeLoop, decodeLoop_code (by decide), decodeLoop_code (by decide),
      decodeLoop_pad (by decide),
      decodeLoop_lastPad (by decide) (by rw [List.length_singleton] at hfit; omega), decodeLoop]
    have hbyte : UInt8.ofNat ((((0 * 64 + a.toNat / 4 % 64) * 64 + a.toNat % 4 * 16 % 64) * 64 * 64)
        / 65536) = a := ofNat_eq (by omega)
    simp only [groupBytes, hbyte]
    rfl
  | case3 a b =>
    have ha := a.toNat_lt
    have hb := b.toNat_lt
    rw [encodeLoop, decodeLoop_code (by decide), decodeLoop_code (by decide),
      decodeLoop_code (by decide),
      decodeLoop_lastPad (by decide) (by rw [List.length_cons, List.length_singleton] at hfit; omega),
      decodeLoop]
    generalize ht : (((0 * 64 + a.toNat / 4 % 64) * 64 + (a.toNat % 4 * 16 + b.toNat / 16) % 64) * 64
      + b.toNat % 16 * 4 % 64) * 64 = t
    have hfirst : UInt8.ofNat (t / 65536) = a := ofNat_eq (by omega)
    have hsecond : UInt8.ofNat (t / 256) = b := ofNat_eq (by omega)
    simp only [groupBytes, hfirst, hsecond]
    rfl
  | case4 a b c inp ih =>
    have ha := a.toNat_lt
    have hb := b.toNat_lt
    have hc := c.toNat_lt
    simp only [List.length_cons] at hfit
    rw [encodeLoop, decodeLoop_code (by decide), decodeLoop_code (by decide),
      decodeLoop_code (by decide), decodeLoop_lastCode (by omega)]
    generalize ht : (((0 * 64 + a.toNat / 4 % 64) * 64 + (a.toNat % 4 * 16 + b.toNat / 16) % 64) * 64
      + (b.toNat % 16 * 4 + c.toNat / 64) % 64) * 64 + c.toNat % 64 = t
    have hfirst : UInt8.ofNat (t / 65536) = a := ofNat_eq (by omega)
    have hsecond : UInt8.ofNat (t / 256) = b := ofNat_eq (by omega)
    have hthird : UInt8.ofNat t = c := ofNat_eq (by omega)
    have hgroup : groupBytes t 3 = [a, b, c] := by
      simp only [groupBytes, hfirst, hsecond, hthird]
      rfl
    rw [hgroup, ih (by rw [List.length_append, List.length_cons, List.length_cons,
      List.length_singleton]; omega), List.append_assoc]
    rfl

end

/-- What was encoded comes back, whatever room there is beyond the least. -/
theorem base64_roundTrip (x : List UInt8) (outlen capacity : ℕ)
    (hout : 4 * ((x.length + 2) / 3) + 1 ≤ outlen) (hcapacity : x.length ≤ capacity) :
    ∃ text, base64Encode x outlen = (.CRYPT_OK, text ++ [0], text.length) ∧
      text.length = 4 * ((x.length + 2) / 3) ∧ (∀ b ∈ text, b ∈ CODES ∨ b = PAD) ∧
      base64Decode text capacity = (.CRYPT_OK, x) ∧ decodedLen text capacity = x.length := by
  have hdecode : base64Decode (encodeLoop x) capacity = (.CRYPT_OK, x) :=
    decodeLoop_encodeLoop x (by rwa [List.length_nil, Nat.zero_add])
  refine ⟨encodeLoop x, ?_, encodeLoop_length x, encodeLoop_mem x, hdecode, ?_⟩
  · rw [base64Encode, if_neg (by omega)]
  · rw [decodedLen, hdecode]

theorem base64_roundTrip_pppoe : ∃ text, base64Encode (CStr.ofString "pppoe").val 9 =
      (.CRYPT_OK, text ++ [0], text.length) ∧
    text.length = 4 * (((CStr.ofString "pppoe").val.length + 2) / 3) ∧
    (∀ b ∈ text, b ∈ CODES ∨ b = PAD) ∧
    base64Decode text 5 = (.CRYPT_OK, (CStr.ofString "pppoe").val) ∧
    decodedLen text 5 = (CStr.ofString "pppoe").val.length :=
  base64_roundTrip _ 9 5 (by decide) (by decide)

end EzpFirmware.UserNvram
