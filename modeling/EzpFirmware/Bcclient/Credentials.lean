import EzpFirmware.Bcclient.KeyTable
import EzpFirmware.Bcclient.Protocols
import EzpFirmware.UserNvram.MapDevice
import EzpFirmware.UserNvram.Rules

/-! # Credentials in packets

A packet carries a name and a password as hexadecimal text, encrypted with the
key that the key table holds for the sender. The handlers decrypt both into
short arrays and compare them with the attributes of `http_rule`.
-/
namespace EzpFirmware.Bcclient
open Lib UserNvram

def BUF_LENGTH : ℕ := 256

def MAXIMUM_USER_NAME_BUFFER_LENGTH : ℕ := 33

def MAXIMUM_PASSWORD_BUFFER_LENGTH : ℕ := 17

/-- `'U'`. -/
def USERNAME_KEY : UInt8 := 0x55

/-- `'P'`. -/
def PASSWORD_KEY : UInt8 := 0x50

def SUCCESS : ℤ := 0

def ERROR_AUTHENTICATION : ℤ := -2

def ERROR_UNSUPPORTED : ℤ := -3

def ERROR_BAD_PARAMETERS : ℤ := -4

def TAG_PASSWORD : ℕ := 10

def TAG_ADMIN_NAME : ℕ := 11

/-- `FINDER_CMD_PACKET`: the receive buffer, and how many bytes of it were received. -/
structure Packet where
  mem : ℕ → UInt8
  cnt : ℕ

/-- The field `Cmd` of the header. -/
def Packet.cmd (p : Packet) : ℕ := ofLe (bytesAt p.mem 10 2)

/-- The sender as the key table knows it: `src_mac`. -/
def Packet.srcMac (p : Packet) : UInt64 := UInt64.ofNat (ofLe (bytesAt p.mem 0 6))

/-- What `GetTagData` copies of a tag into an array of `size` bytes. -/
def Packet.tag (p : Packet) (tagId size : ℕ) : List UInt8 := getTagData p.mem p.cnt tagId size

/-- What the machine gives while it handles one packet. -/
structure Env where
  /-- The answer of `gettimeofday`. -/
  tv : Timeval
  /-- What `get_16byte_key` gives, if it is called. -/
  fresh : Key
  /-- The heap behind the `n`-th text that is decrypted. -/
  heap : ℕ → List UInt8
  /-- The memory behind the array of the user name. -/
  behindUser : List UInt8
  /-- The memory behind the array of the password. -/
  behindPwd : List UInt8

/-! ## Decryption -/

/-- `ascii2byte`. The second character is compared as a signed one. -/
def ascii2byte (val val' : UInt8) : UInt8 :=
  let temp := if val > 0x60 then val - 39 else val
  let temp := (temp - 48) * 16 + val'
  let temp := if val' > 0x60 ∧ val' < 0x80 then temp - 39 else temp
  temp - 48

/-- A round of `tea_decrypt`, on `v0`, `v1` and `sum`. -/
def teaRound (k : Key) (s : UInt32 × UInt32 × UInt32) : UInt32 × UInt32 × UInt32 :=
  let v0 := s.1
  let v1 := s.2.1
  let sum := s.2.2
  let v1 := v1 - (((v0 <<< 4) + k[2]) ^^^ (v0 + sum) ^^^ ((v0 >>> 5) + k[3]))
  let v0 := v0 - (((v1 <<< 4) + k[0]) ^^^ (v1 + sum) ^^^ ((v1 >>> 5) + k[1]))
  (v0, v1, sum - 0x9e3779b9)

/-- `tea_decrypt`, on the bytes of a block. -/
def teaDecrypt (k : Key) (block : List UInt8) : List UInt8 :=
  let v0 := UInt32.ofNat (ofLe (block.take 4))
  let v1 := UInt32.ofNat (ofLe ((block.drop 4).take 4))
  let r := (teaRound k)^[32] (v0, v1, 0xC6EF3720)
  leBytes 4 r.1.toNat ++ leBytes 4 r.2.1.toNat

/-- The loop of `_to_decrypt_str` over the blocks. The last one may reach behind the text. -/
def decryptLoop (key : Key) : ℕ → List UInt8 → List UInt8
  | 0, mem => mem
  | n + 1, mem => teaDecrypt key (mem.take 8) ++ decryptLoop key n (mem.drop 8)

/-- `get_decrypt_output_length`. -/
def getDecryptOutputLength (szInput : CStr) : ℕ := szInput.len / 2

/-- `_to_decrypt_str`: the memory from `szOutput` on, which has the heap behind it. -/
def toDecryptStr (key : Key) (keyCharacter : UInt8) (szInput : List UInt8) (nOutputLength : ℕ)
    (heap : List UInt8) : List UInt8 :=
  let szOutput := (List.range nOutputLength).map fun i =>
    ascii2byte (szInput.getD (i * 2) 0) (szInput.getD (i * 2 + 1) 0) ^^^ keyCharacter
  decryptLoop key ((nOutputLength + 7) / 8) (szOutput ++ heap)

/-- The text at `plain_text`, decrypted from an array. -/
def plainText (key : Key) (keyCharacter : UInt8) (data heap : List UInt8) : CStr :=
  CStr.read (toDecryptStr key keyCharacter data (getDecryptOutputLength (CStr.read data)) heap)

/-- A text as an array of `n` bytes holds it after `strncpy`, with the memory behind it. -/
def held (n : ℕ) (behind : List UInt8) (s : CStr) : CStr :=
  CStr.read (strncpy (List.replicate n 0 ++ behind) s.val n)

/-- A zeroed array after data were copied to its start. -/
def filled (n : ℕ) (data : List UInt8) : List UInt8 := poke (List.replicate n 0) 0 data

theorem held_short {n : ℕ} {behind : List UInt8} {s : CStr} (h : s.len < n) :
    held n behind s = s := by
  have hread : CStr.read s.val = s := CStr.read_val s
  rw [held, read_strncpy (by rw [hread]; exact h), hread]

/-- An array that is read as a text shorter than itself holds the whole text. -/
theorem eq_of_held {n : ℕ} {behind : List UInt8} {s t : CStr} (h : held n behind s = t)
    (ht : t.len < n) : s = t := by
  by_cases hs : s.len < n
  · rw [← h, held_short hs]
  · -- The array is full of bytes that are no terminator.
    have hread : CStr.read s.val = s := CStr.read_val s
    have hlen : (s.val.take n).length = n := by
      rw [List.length_take]
      exact min_eq_left (not_lt.mp hs)
    have hfree : ∀ b ∈ s.val.take n, (b != 0) = true := by
      intro b hb
      have hne : b ≠ 0 := ne_of_mem_of_not_mem (List.mem_of_mem_take hb) s.property
      simpa using hne
    have hle : n ≤ (held n behind s).len := by
      rw [held, strncpy, hread, hlen, Nat.sub_self]
      simp only [List.replicate_zero, List.append_nil, CStr.len, CStr.read]
      rw [List.takeWhile_append_of_pos hfree, List.length_append, hlen]
      exact Nat.le_add_right _ _
    rw [h] at hle
    omega

/-! ## The credentials of the router -/

/-- `http_rule_attr` and `lan_static_rule_attr`. -/
def rules : List Rule :=
  [⟨.ofString "lan_static_rule", [.ofString "ipaddr", .ofString "mask", .ofString "gateway",
      .ofString "dns", .ofString "wins"]⟩,
    ⟨.ofString "http_rule", [.ofString "name", .ofString "enable", .ofString "rmgt_enable",
      .ofString "username", .ofString "passwd", .ofString "port"]⟩]

/-- An attribute of `http_rule`, as a zeroed array of `bsize` bytes has it. -/
def httpRule (u : Unspecified) (type : CStr) (bsize : ℕ) : Api CStr := do
  let r ← ezplibGetAttrVal u rules (fun _ _ => showValue) (.ofString "http_rule") 0 type bsize
  pure r.2

/-- The name and the password of `http_rule`, read into arrays of the two sizes. -/
def routerTexts (u : Unspecified) (userSize pwdSize : ℕ) (nvram : Variables) : CStr × CStr :=
  ((onMap (httpRule u (.ofString "username") userSize) nvram).1,
    (onMap (httpRule u (.ofString "passwd") pwdSize) nvram).1)

/-- The texts that `check_admistrator_password` decrypts. -/
def senderTexts (env : Env) (key : Key) (p : Packet) : CStr × CStr :=
  (plainText key USERNAME_KEY (filled BUF_LENGTH (p.tag TAG_ADMIN_NAME BUF_LENGTH)) (env.heap 0),
    plainText key PASSWORD_KEY (filled BUF_LENGTH (p.tag TAG_PASSWORD BUF_LENGTH)) (env.heap 1))

/-- Two texts as the arrays for a name and a password hold them. -/
def heldTexts (env : Env) (texts : CStr × CStr) : CStr × CStr :=
  (held MAXIMUM_USER_NAME_BUFFER_LENGTH env.behindUser texts.1,
    held MAXIMUM_PASSWORD_BUFFER_LENGTH env.behindPwd texts.2)

/-- `check_admistrator_password`: what it returns, and the key table. -/
def checkAdmistratorPassword (u : Unspecified) (env : Env) (p : Packet) (nvram : Variables)
    (keys : KeyList) : ℤ × KeyList :=
  match getKeyByPacket env.tv p.srcMac keys with
  | (none, keys) => (ERROR_AUTHENTICATION, keys)
  | (some i, keys) =>
    if heldTexts env (senderTexts env (keys i).key p) = routerTexts u BUF_LENGTH BUF_LENGTH nvram
    then (SUCCESS, keys) else (ERROR_BAD_PARAMETERS, keys)

/-- The key of the entry that a lookup finds. -/
def liveKey (tv : Timeval) (srcMac : UInt64) (keys : KeyList) : Option Key :=
  (getKeyByPacket tv srcMac keys).1.map fun i => (keys i).key

/-- A lookup leaves the keys. -/
theorem getKeyByPacket_key (tv : Timeval) (m : UInt64) (t : KeyList)
    (i : Fin MAX_CONCURRENT_CLIENTS) : ((getKeyByPacket tv m t).2 i).key = (t i).key := by
  rcases getKeyByPacket_cases tv m t with ⟨j, -, -, heq⟩ | ⟨-, heq⟩ <;> rw [heq]
  rcases eq_or_ne i j with rfl | hij
  · simp
  · simp [hij]

/-- The check passes exactly with a live key under which the arrays hold the texts of
`http_rule`. -/
theorem checkAdmistratorPassword_success {u : Unspecified} {env : Env} {p : Packet}
    {nvram : Variables} {keys : KeyList} :
    (checkAdmistratorPassword u env p nvram keys).1 = SUCCESS ↔
      ∃ k, liveKey env.tv p.srcMac keys = some k ∧
        heldTexts env (senderTexts env k p) = routerTexts u BUF_LENGTH BUF_LENGTH nvram := by
  have hkey := getKeyByPacket_key env.tv p.srcMac keys
  unfold checkAdmistratorPassword liveKey
  generalize getKeyByPacket env.tv p.srcMac keys = r at hkey ⊢
  obtain ⟨_ | i, keys'⟩ := r
  · exact iff_of_false (by simp [ERROR_AUTHENTICATION, SUCCESS]) (by simp)
  · dsimp only at hkey ⊢
    rw [hkey i]
    split
    case isTrue h => exact iff_of_true rfl ⟨_, rfl, h⟩
    case isFalse h =>
      refine iff_of_false (by simp [ERROR_BAD_PARAMETERS, SUCCESS]) ?_
      rintro ⟨k, hk, hheld⟩
      cases hk
      exact h hheld

theorem checkAdmistratorPassword_keys (u : Unspecified) (env : Env) (p : Packet)
    (nvram : Variables) (keys : KeyList) :
    (checkAdmistratorPassword u env p nvram keys).2 =
      (getKeyByPacket env.tv p.srcMac keys).2 := by
  unfold checkAdmistratorPassword
  generalize getKeyByPacket env.tv p.srcMac keys = r
  obtain ⟨_ | i, keys'⟩ := r
  · rfl
  · dsimp only
    split <;> rfl

end EzpFirmware.Bcclient
