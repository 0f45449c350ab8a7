import EzpFirmware.Httpd.Cgi
import EzpFirmware.UserNvram.Base64
import EzpFirmware.UserNvram.Rules

/-! # Who is asking

The name and password of a request come from its `auth` cookie, in base64. They
are compared with the stored ones, which are read from the variables for every
request that has to be authenticated.
-/
namespace EzpFirmware.Httpd
open Lib UserNvram

def TMP_LEN : ℕ := 256

def SHORT_BUF_LEN : ℕ := 32

def AUTH_LEN : ℕ := 64

/-- Behaviour of the server that the language does not define. -/
inductive Fault where
  /-- A write past the end of a buffer. -/
  | overflow
  /-- A read through a null pointer. -/
  | null
  /-- A write to a string literal. -/
  | literal
  /-- The entry behind the last one of a table. -/
  | outOfTable
  deriving DecidableEq

def COLON : UInt8 := 0x3a

/-! ## The cookie -/

/-- `strstr`: the text from the first occurrence on. -/
def strstr (s tar : List UInt8) : Option (List UInt8) := s.tails.find? tar.isPrefixOf

/-- `getCookie`, with a `value` of `TMP_LEN` zeros. Without a separator the value goes up to the
last byte of the cookie, exclusively. -/
def getCookie (cookie name : CStr) : Except Fault CStr :=
  let tar := name.val ++ [KernelNvram.EQ]
  match strstr cookie.val tar with
  | none => .ok CStr.empty
  | some found =>
    let posS := found.drop tar.length
    let n : ℤ := if SEMICOLON ∈ posS then (posS.takeWhile (· != SEMICOLON)).length
      else posS.length - 1
    if n < 0 ∨ TMP_LEN ≤ n then .error .overflow else .ok (CStr.read (posS.take n.toNat))

/-- `parse_cookie_info`, on the memory from the cookie on. -/
def parseCookieInfo (L : Libc) (junk : UInt8) (cookie : List UInt8) : Except Fault CStr :=
  if (CStr.read cookie).len = 0 then .ok CStr.empty
  else getCookie (CStr.read (unescape L cookie.length junk cookie)) (.ofString "auth")

/-! ## The stored name and password -/

/-- The rows of `rules` that the server reads for a request. -/
def rules : List Rule :=
  [⟨.ofString "wan_status_rule",
      [.ofString "state", .ofString "trycount", .ofString "action", .ofString "uptime"]⟩,
    ⟨.ofString "lan_hwaddr_rule_default", [.ofString "hwaddr"]⟩,
    ⟨.ofString "http_rule", [.ofString "name", .ofString "enable", .ofString "rmgt_enable",
      .ofString "username", .ofString "passwd", .ofString "port"]⟩,
    ⟨.ofString "wizard_rule", [.ofString "set_wizard", .ofString "admin", .ofString "mode",
      .ofString "wan_trad", .ofString "wan_wwan", .ofString "bw", .ofString "time",
      .ofString "wifi"]⟩]

/-- What `ezplib_get_attr_val` leaves in the buffer, for the first rule of a rule set. -/
def attrVal (u : Unspecified) (ruleSet type : CStr) (bsize : ℕ) : Api CStr := do
  let r ← ezplibGetAttrVal u rules (fun _ _ => showValue) ruleSet 0 type bsize
  pure r.2

/-- `do_auth`: `auth_userid` and `auth_passwd`. -/
def doAuth (u : Unspecified) : Api (CStr × CStr) := do
  let userid ← attrVal u (.ofString "http_rule") (.ofString "username") AUTH_LEN
  let passwd ← attrVal u (.ofString "http_rule") (.ofString "passwd") AUTH_LEN
  pure (userid, passwd)

def tolower (b : UInt8) : UInt8 := if 0x41 ≤ b ∧ b ≤ 0x5a then b + 0x20 else b

/-- The cookie in clear: `authinfo`, which is terminated behind the decoded bytes, or behind the
buffer if they were not decoded. -/
def authInfo (authorization : CStr) : Except Fault CStr :=
  let r := base64Decode authorization.val TMP_LEN
  let l := if r.1 = .CRYPT_OK then r.2.length else TMP_LEN
  if TMP_LEN ≤ l then .error .overflow else .ok (CStr.read r.2)

/-- `b64_auth_passwd`. -/
def b64AuthPasswd (passwd : CStr) : CStr :=
  let r := base64Decode passwd.val TMP_LEN
  if r.1 ≠ .CRYPT_OK then passwd else CStr.read r.2

/-- `auth_check2`, in a build without an account of its own: 0 for the right name and password. -/
def authCheck2 (u : Unspecified) (userid passwd authorization : CStr) : Api (Except Fault ℤ) :=
  match authInfo authorization with
  | .error e => pure (.error e)
  | .ok authinfo =>
    match CStr.cut COLON authinfo with
    | none => pure (.ok 1)
    | some (user, pw) => do
      let togo ← attrVal u (.ofString "lan_hwaddr_rule_default") (.ofString "hwaddr") TMP_LEN
      if userid ≠ user then
        if user ≠ .ofString "togo" ∨ togo ≠ pw ∧ togo.val.map tolower ≠ pw.val then
          pure (.ok 1)
        else pure (.ok 0)
      else if b64AuthPasswd passwd ≠ pw ∧ passwd ≠ pw then pure (.ok 2)
      else pure (.ok 0)

/-! ## What fits the buffers -/

/-- The value in a cookie, if there is one, has a byte behind it and fits `value` with its
terminator. -/
def CookieFits (cookie name : CStr) : Prop :=
  ∀ found, strstr cookie.val (name.val ++ [KernelNvram.EQ]) = some found →
    let posS := found.drop (name.val ++ [KernelNvram.EQ]).length
    posS ≠ [] ∧ (if SEMICOLON ∈ posS then (posS.takeWhile (· != SEMICOLON)).length
      else posS.length - 1) < TMP_LEN

theorem getCookie_ok_iff (cookie name : CStr) :
    (∃ value, getCookie cookie name = .ok value) ↔ CookieFits cookie name := by
  unfold getCookie CookieFits
  dsimp only
  cases strstr cookie.val (name.val ++ [KernelNvram.EQ]) with
  | none => simp
  | some found =>
    simp only [Option.some.injEq, forall_eq']
    generalize found.drop (name.val ++ [KernelNvram.EQ]).length = posS
    cases posS with
    | nil => simp
    | cons b rest =>
      have hlen : (if SEMICOLON ∈ b :: rest then
            (((b :: rest).takeWhile (· != SEMICOLON)).length : ℤ)
          else ((b :: rest).length : ℤ) - 1) =
          ((if SEMICOLON ∈ b :: rest then ((b :: rest).takeWhile (· != SEMICOLON)).length
            else (b :: rest).length - 1 : ℕ) : ℤ) := by
        split_ifs <;> simp
      rw [hlen]
      generalize (if SEMICOLON ∈ b :: rest then ((b :: rest).takeWhile (· != SEMICOLON)).length
        else (b :: rest).length - 1) = n
      by_cases hn : n < TMP_LEN
      · rw [if_neg (by omega)]
        simp [hn]
      · rw [if_pos (.inr (by omega))]
        simp [hn]

/-- A text whose base64 is right and leaves room for the terminator of `authinfo`. -/
def Decodes (authorization : CStr) : Prop :=
  (base64Decode authorization.val TMP_LEN).1 = .CRYPT_OK ∧
    (base64Decode authorization.val TMP_LEN).2.length < TMP_LEN

theorem authInfo_ok_iff (authorization : CStr) :
    (∃ info, authInfo authorization = .ok info) ↔ Decodes authorization := by
  unfold authInfo Decodes
  dsimp only
  by_cases hok : (base64Decode authorization.val TMP_LEN).1 = .CRYPT_OK
  · rw [if_pos hok]
    split_ifs with hl
    · simp [hl]
    · simp [hok, Nat.lt_of_not_le hl]
  · simp [hok]

/-- `auth_check2` comes to an end exactly for such a text. -/
theorem authCheck2_ok_iff (u : Unspecified) (userid passwd authorization : CStr) (M : Variables) :
    (∃ code, (onMap (authCheck2 u userid passwd authorization) M).1 = .ok code) ↔
      Decodes authorization := by
  rw [← authInfo_ok_iff, authCheck2]
  cases authInfo authorization with
  | error e => simp
  | ok info =>
    apply iff_of_true _ ⟨info, rfl⟩
    dsimp only
    cases CStr.cut COLON info with
    | none => exact ⟨1, rfl⟩
    | some a =>
      dsimp only
      rw [onMap_bind]
      split_ifs
      · exact ⟨1, rfl⟩
      · exact ⟨0, rfl⟩
      · exact ⟨2, rfl⟩
      · exact ⟨0, rfl⟩

/-- The stored password fits `b64_auth_passwd` decoded, with its terminator. -/
theorem b64AuthPasswd_fits {passwd : CStr} (h : passwd.len < AUTH_LEN) :
    (base64Decode passwd.val TMP_LEN).2.length < TMP_LEN := by
  have hd := base64Decode_length passwd.val TMP_LEN
  rw [CStr.len, AUTH_LEN] at h
  rw [TMP_LEN] at hd ⊢
  omega

/-! ## Reading changes nothing -/

section
variable {P : CStr → Prop} (u : Unspecified)

theorem confined_attrVal (ruleSet type : CStr) (bsize : ℕ) :
    Confined P (attrVal u ruleSet type bsize) :=
  (confined_getAttrVal u rules _ ruleSet 0 type bsize).bind fun _ => trivial

end

/-! ## Whom the check lets in

For a text whose base64 is right and fits the buffer, the check stays inside its
buffers, and lets in the stored user with the stored password, and `togo` with
the hardware address, in the spelling that is stored or in lower case.
-/

/-- The user with the password of the device. -/
def TOGO : CStr := .ofString "togo"

/-- The hardware address, as the check reads it. -/
def storedHwaddr (u : Unspecified) (M : Variables) : CStr :=
  (onMap (attrVal u (.ofString "lan_hwaddr_rule_default") (.ofString "hwaddr") TMP_LEN) M).1

/-- The text decodes to a name and a password. -/
structure Credentials (authorization user pw : CStr) : Prop where
  decodes : (base64Decode authorization.val TMP_LEN).1 = .CRYPT_OK
  text : (CStr.read (base64Decode authorization.val TMP_LEN).2).val = user.val ++ COLON :: pw.val
  first : COLON ∉ user.val

/-- The stored password, in base64 as it is stored or decoded. -/
def StoredPassword (passwd pw : CStr) : Prop :=
  pw = passwd ∨ (base64Decode passwd.val TMP_LEN).1 = .CRYPT_OK ∧
    pw = CStr.read (base64Decode passwd.val TMP_LEN).2

/-- The hardware address as it is stored or in lower case. -/
def SpelledHwaddr (hwaddr pw : CStr) : Prop := pw = hwaddr ∨ pw.val = hwaddr.val.map tolower

variable {u : Unspecified} {M : Variables} {userid passwd authorization info user pw : CStr}

instance (authorization : CStr) : Decidable (Decodes authorization) :=
  inferInstanceAs (Decidable (_ ∧ _))

theorem authInfo_eq (h : Decodes authorization) :
    authInfo authorization = .ok (CStr.read (base64Decode authorization.val TMP_LEN).2) := by
  rw [authInfo]
  simp only [h.1, if_true]
  exact if_neg (Nat.not_le.mpr h.2)

theorem takeWhile_append_tail {c : UInt8} {l : List UInt8} (h : c ∈ l) :
    l.takeWhile (· != c) ++ c :: (l.dropWhile (· != c)).tail = l := by
  induction l with
  | nil => cases h
  | cons b l ih =>
    by_cases hb : b = c
    · simp [hb]
    · have hmem : c ∈ l := (List.mem_cons.mp h).resolve_left fun heq => hb heq.symm
      simpa [hb] using ih hmem

/-- A text is cut at its first colon. -/
theorem cut_colon (h : CStr.cut COLON info = some (user, pw)) :
    info.val = user.val ++ COLON :: pw.val := by
  rw [CStr.cut] at h
  split_ifs at h with hmem
  rw [Option.some.injEq, Prod.mk.injEq] at h
  obtain ⟨rfl, rfl⟩ := h
  exact (takeWhile_append_tail hmem).symm

theorem credentials_of_cut (h : Decodes authorization)
    (hcut : CStr.cut COLON (CStr.read (base64Decode authorization.val TMP_LEN).2) =
      some (user, pw)) : Credentials authorization user pw :=
  ⟨h.1, cut_colon hcut, CStr.cut_left_not_mem hcut⟩

theorem storedPassword_of_b64 (h : b64AuthPasswd passwd = pw) : StoredPassword passwd pw := by
  rw [b64AuthPasswd] at h
  by_cases hok : (base64Decode passwd.val TMP_LEN).1 = .CRYPT_OK
  · simp only [hok, ne_eq, not_true, if_false] at h
    exact Or.inr ⟨hok, h.symm⟩
  · simp only [ne_eq, hok, not_false_iff, if_true] at h
    exact Or.inl h.symm

/-- What is read of an attribute fits the buffer that it is read into. -/
theorem attrVal_fits (u : Unspecified) (M : Variables) (ruleSet type : CStr) {bsize : ℕ}
    (h : 0 < bsize) : (onMap (attrVal u ruleSet type bsize) M).1.len < bsize := by
  have hempty : CStr.empty.len < bsize := h
  have hshow : ∀ val : CStr, (showValue val bsize).2.len < bsize := by
    intro val
    have htake : (val.val.take (bsize - 1)).length ≤ bsize - 1 := List.length_take_le _ _
    change (val.val.take (bsize - 1)).length < bsize
    omega
  rw [attrVal, onMap_bind]
  change (onMap (ezplibGetAttrVal u rules (fun _ _ => showValue) ruleSet 0 type bsize) M).1.2.len <
    bsize
  rw [ezplibGetAttrVal]
  split_ifs
  · exact hempty
  · rw [onMap_bind]
    split_ifs
    · exact hempty
    · dsimp only
      split
      · exact hshow _
      · exact hempty

/-- What the buffers of the check are given: each text has room for its terminator. -/
structure BuffersFit (hwaddr passwd user pw : CStr) : Prop where
  user : user.len < TMP_LEN
  pw : pw.len < TMP_LEN
  b64AuthPasswd : (base64Decode passwd.val TMP_LEN).2.length < TMP_LEN
  copied : passwd.len < TMP_LEN
  togoPasswd : hwaddr.len < TMP_LEN

theorem Credentials.fit (h : Credentials authorization user pw) (hdecodes : Decodes authorization)
    (hpasswd : passwd.len < AUTH_LEN) : BuffersFit (storedHwaddr u M) passwd user pw := by
  have hlen := congrArg List.length h.text
  have hread := CStr.read_len_le (base64Decode authorization.val TMP_LEN).2
  have hdec := hdecodes.2
  rw [List.length_append, List.length_cons] at hlen
  constructor
  · change user.val.length < TMP_LEN
    rw [CStr.len] at hread
    omega
  · change pw.val.length < TMP_LEN
    rw [CStr.len] at hread
    omega
  · exact b64AuthPasswd_fits hpasswd
  · exact hpasswd.trans (by decide)
  · exact attrVal_fits u M _ _ (by decide)

/-- A text that decodes and fits is judged without leaving a buffer, and only the given user with
the given password, or `togo` with the hardware address, is let in. -/
theorem authCheck2_judges (hpasswd : passwd.len < AUTH_LEN) (hdecodes : Decodes authorization) :
    ∃ code, (onMap (authCheck2 u userid passwd authorization) M).1 = .ok code ∧
      (∀ user pw, Credentials authorization user pw →
        BuffersFit (storedHwaddr u M) passwd user pw) ∧
      (code = 0 → ∃ user pw, Credentials authorization user pw ∧
        (user = userid ∧ StoredPassword passwd pw ∨
          user = TOGO ∧ SpelledHwaddr (storedHwaddr u M) pw)) := by
  have hfit : ∀ user pw, Credentials authorization user pw →
      BuffersFit (storedHwaddr u M) passwd user pw :=
    fun user pw h => h.fit hdecodes hpasswd
  rw [authCheck2, authInfo_eq hdecodes]
  dsimp only
  cases hcut : CStr.cut COLON (CStr.read (base64Decode authorization.val TMP_LEN).2) with
  | none => exact ⟨1, rfl, hfit, fun h => absurd h (by decide)⟩
  | some parts =>
    obtain ⟨user, pw⟩ := parts
    have hcred := credentials_of_cut hdecodes hcut
    dsimp only
    rw [onMap_bind]
    split_ifs with huser htogo hpw
    · exact ⟨1, rfl, hfit, fun h => absurd h (by decide)⟩
    · rw [not_or, not_not, not_and_or, not_not, not_not] at htogo
      refine ⟨0, rfl, hfit, fun _ => ⟨user, pw, hcred, Or.inr ⟨htogo.1, ?_⟩⟩⟩
      rcases htogo.2 with hstored | hlower
      · exact Or.inl hstored.symm
      · exact Or.inr hlower.symm
    · exact ⟨2, rfl, hfit, fun h => absurd h (by decide)⟩
    · rw [not_and_or, not_not, not_not] at hpw
      refine ⟨0, rfl, hfit, fun _ => ⟨user, pw, hcred, Or.inl ⟨(not_not.mp huser).symm, ?_⟩⟩⟩
      rcases hpw with hdecoded | hstored
      · exact storedPassword_of_b64 hdecoded
      · exact Or.inl hstored.symm

/-- What the check compares with is read into buffers of its own. -/
theorem doAuth_fits (u : Unspecified) (M : Variables) : (onMap (doAuth u) M).1.2.len < AUTH_LEN := by
  rw [doAuth, onMap_bind, onMap_bind]
  exact attrVal_fits u _ _ _ (by decide)

/-- For every text that decodes and fits, and every stored account, the check leaves no buffer, and
lets in only the stored user with the stored password, and `togo` with the hardware address. -/
theorem authCheck2_accepts (u : Unspecified) (M : Variables) (authorization : CStr)
    (hdecodes : Decodes authorization) :
    let account := (onMap (doAuth u) M).1
    ∃ code, (onMap (authCheck2 u account.1 account.2 authorization) M).1 = .ok code ∧
      (∀ user pw, Credentials authorization user pw →
        BuffersFit (storedHwaddr u M) account.2 user pw) ∧
      (code = 0 → ∃ user pw, Credentials authorization user pw ∧
        (user = account.1 ∧ StoredPassword account.2 pw ∨
          user = TOGO ∧ SpelledHwaddr (storedHwaddr u M) pw)) :=
  authCheck2_judges (doAuth_fits u M) hdecodes

/-- A store with an account and a hardware address in capitals. -/
def addressed : Variables := fun m =>
  if m = .ofString "lan_hwaddr_rule_default" then some (.ofString "AB")
  else if m = .ofString "http_rule" then some (.ofString "http^1^0^admin^cHc=^80")
  else none

/-- What an uninitialised buffer may hold. -/
def untouched : Unspecified := ⟨id, Unspecified.id_plain, CStr.empty, 0⟩

/-- `admin` with the decoded password. -/
theorem authCheck2_accepts_admin : Decodes (.ofString "YWRtaW46cHc=") ∧
    let account := (onMap (doAuth untouched) addressed).1
    ∃ code,
      (onMap (authCheck2 untouched account.1 account.2 (.ofString "YWRtaW46cHc=")) addressed).1 =
        .ok code ∧
      (∀ user pw, Credentials (.ofString "YWRtaW46cHc=") user pw →
        BuffersFit (storedHwaddr untouched addressed) account.2 user pw) ∧
      (code = 0 → ∃ user pw, Credentials (.ofString "YWRtaW46cHc=") user pw ∧
        (user = account.1 ∧ StoredPassword account.2 pw ∨
          user = TOGO ∧ SpelledHwaddr (storedHwaddr untouched addressed) pw)) := by
  have hdecodes : Decodes (.ofString "YWRtaW46cHc=") := by decide +kernel
  exact ⟨hdecodes, authCheck2_accepts untouched addressed _ hdecodes⟩

/-- A text has one first colon. -/
theorem Credentials.eq (h : Credentials authorization user pw) {user' pw' : CStr}
    (h' : Credentials authorization user' pw') : user' = user ∧ pw' = pw := by
  have htext := h'.text.symm.trans h.text
  have hfirst : ∀ {l r : List UInt8}, COLON ∉ l → (l ++ COLON :: r).takeWhile (· != COLON) = l := by
    intro l r hl
    rw [List.takeWhile_append_of_pos fun b hb => by
      simpa using fun heq : b = COLON => hl (heq ▸ hb)]
    simp
  have huser : user'.val = user.val := by
    rw [← hfirst h'.first (r := pw'.val), htext, hfirst h.first]
  rw [huser] at htext
  exact ⟨Subtype.ext huser, Subtype.ext (List.cons.inj (List.append_cancel_left htext)).2⟩

/-- `togo` is let in with the stored address in lower case. -/
theorem authCheck2_lower : ∃ M : Variables, ∃ authorization : CStr, Decodes authorization ∧
    let account := (onMap (doAuth untouched) M).1
    (onMap (authCheck2 untouched account.1 account.2 authorization) M).1.toOption = some 0 ∧
      ¬∃ user pw, Credentials authorization user pw ∧
        (user = account.1 ∧ StoredPassword account.2 pw ∨
          user = TOGO ∧ storedHwaddr untouched M ≠ CStr.empty ∧ pw = storedHwaddr untouched M) := by
  refine ⟨addressed, .ofString "dG9nbzphYg==", by decide +kernel, by decide +kernel, ?_⟩
  rintro ⟨user, pw, hcred, hwho⟩
  have htogo : Credentials (.ofString "dG9nbzphYg==") TOGO (.ofString "ab") :=
    ⟨by decide +kernel, by decide +kernel, by decide +kernel⟩
  obtain ⟨rfl, rfl⟩ := htogo.eq hcred
  rcases hwho with ⟨huser, -⟩ | ⟨-, -, hpw⟩
  · exact absurd huser (by decide +kernel)
  · exact absurd hpw (by decide +kernel)

end EzpFirmware.Httpd
