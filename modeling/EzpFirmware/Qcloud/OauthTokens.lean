import EzpFirmware.Lib.Numerals
import EzpFirmware.Qcloud.Record
import EzpFirmware.Qcloud.TokenCipher

/-! # The tokens of a grant

A grant encrypts the tokens of an answer and stores their texts. A later request loads a
text into the array of its token and decrypts it there.
-/
namespace EzpFirmware.Qcloud
open Lib UserNvram

def ERR_SYSTEM : ℤ := -977

def QCLOUD_STATUS_MSG_STR_LEN : ℕ := 512

/-- `oauth_errorstr`. -/
def oauthErrorstr : List (ℤ × CStr) :=
  [(1012001, .ofString "invalid_request"), (1010002, .ofString "invalid_client"),
    (1012005, .ofString "invalid_user"), (1012006, .ofString "invalid_password"),
    (1012007, .ofString "invalid_grant"), (1012008, .ofString "user_not_activated"),
    (1019999, .ofString "server_error"), (NO_ERROR, .ofString "0")]

/-- `qcloud_get_status_code`. -/
def qcloudGetStatusCode (codeStr : CStr) : ℤ :=
  if codeStr = CStr.empty then NO_ERROR
  else
    match oauthErrorstr.find? fun entry => entry.2.val.isPrefixOf codeStr.val with
    | some entry => entry.1
    | none => atoi codeStr

/-- What a token is granted for. -/
inductive GrantType where
  | clientCred
  | passwd
  | refreshToken
  deriving DecidableEq

/-- The entries that `json_parse` has filled in. -/
structure OauthFields where
  error : CStr
  errorDescription : CStr
  accessToken : CStr
  expiresIn : CStr
  refreshToken : CStr

/-- The part of `struct qcloud_st` that a grant changes. -/
structure OauthContext where
  authToken : List UInt8
  refreshToken : List UInt8
  appToken : List UInt8
  validPeriod : List UInt8
  tokenLastUpdateTime : BitVec 32
  statusCode : ℤ
  statusMsg : List UInt8

/-- `qid_httpc_oauth_handler` at the time `now`. There are no entries for an answer that is not
JSON. -/
def qidHttpcOauthHandler (cipher : Cipher) (other : CStr → Variables → ℤ × Variables)
    (now : BitVec 32) (resp : Option OauthFields) (grantType : GrantType) (ctx : OauthContext)
    (M : Variables) : ℤ × OauthContext × Variables :=
  match resp with
  | none => (ERR_INVALID_VALUE, ctx, M)
  | some fields =>
    let ret := qcloudGetStatusCode fields.error
    if ret ≠ NO_ERROR ∨ fields.accessToken = CStr.empty then
      (ret, { ctx with
        statusCode := ret
        statusMsg := strncpy ctx.statusMsg fields.errorDescription.stored
          QCLOUD_STATUS_MSG_STR_LEN }, M)
    else
      match utilAesEncryptStr cipher fields.accessToken with
      | none => (ERR_SYSTEM, ctx, M)
      | some encToken =>
        if grantType = .passwd ∨ grantType = .refreshToken then
          match utilAesEncryptStr cipher fields.refreshToken with
          | none => (ERR_SYSTEM, ctx, M)
          | some encRefreshToken =>
            let M := (qidSysSetRefreshToken other encRefreshToken M).2
            let M := (qidSysSetAuthToken other encToken M).2
            let period := qidSysSetTokenValidPeriod other fields.expiresIn M
            let M := (qidSysSetLastUpdateTokenTime other (decimal now.toInt) period.2).2
            (period.1, { ctx with
              refreshToken := strncpy ctx.refreshToken fields.refreshToken.stored MAX_APPKEY_LEN
              authToken := strncpy ctx.authToken fields.accessToken.stored MAX_APPKEY_LEN
              validPeriod :=
                poke (strncpy ctx.validPeriod fields.expiresIn.stored NAME_LEN) NAME_LEN [0]
              tokenLastUpdateTime := now
              statusCode := NO_ERROR
              statusMsg := poke ctx.statusMsg 0 [0] }, M)
        else
          (ret, { ctx with
            appToken := strncpy ctx.appToken fields.accessToken.stored MAX_APPKEY_LEN
            statusCode := NO_ERROR
            statusMsg := poke ctx.statusMsg 0 [0] }, (qidSysSetAppToken other encToken M).2)

/-- `GET_TOKEN`: what is left in the array. -/
def getToken (cipher : Cipher) (getFunc : Variables → List UInt8 → ℕ → ℤ × List UInt8)
    (M : Variables) (buff : List UInt8) (buffSize : ℕ) : List UInt8 :=
  utilAesDecryptStr cipher (getFunc M buff buffSize).2 buffSize

/-! ## The setters that a grant calls -/

/-- The tokens that a grant is for. -/
def received (grantType : GrantType) (fields : OauthFields) : List (Field × CStr) :=
  if grantType = .clientCred then [(.appToken, fields.accessToken)]
  else [(.refreshToken, fields.refreshToken), (.authToken, fields.accessToken)]

/-- The calls of setters, in their order. -/
def settings (cipher : Cipher) (now : BitVec 32) (grantType : GrantType) (fields : OauthFields) :
    List (Field × CStr) :=
  if qcloudGetStatusCode fields.error = NO_ERROR ∧
      ∀ token ∈ received grantType fields, token.2 ≠ CStr.empty then
    ((received grantType fields).map fun token => (token.1, hexText (cipher.encrypt token.2.val))) ++
      if grantType = .clientCred then []
      else [(.tokenValidPeriod, fields.expiresIn), (.lastTokenUpdate, decimal now.toInt)]
  else []

/-- Setters one after the other. -/
def setAll (other : CStr → Variables → ℤ × Variables) (calls : List (Field × CStr))
    (M : Variables) : Variables :=
  calls.foldl (fun M call => (qidSysSet other call.1 call.1.copyLen call.2 M).2) M

theorem len_eq_zero {s : CStr} : s.len = 0 ↔ s = CStr.empty :=
  ⟨fun h => Subtype.ext (List.eq_nil_of_length_eq_zero h), fun h => h ▸ rfl⟩

theorem utilAesEncryptStr_empty (cipher : Cipher) : utilAesEncryptStr cipher CStr.empty = none := rfl

theorem utilAesEncryptStr_of_ne (cipher : Cipher) {src : CStr} (h : src ≠ CStr.empty) :
    utilAesEncryptStr cipher src = some (hexText (cipher.encrypt src.val)) :=
  if_neg (mt len_eq_zero.mp h)

/-- The variables that a grant leaves. -/
theorem handler_variables (cipher : Cipher) (other : CStr → Variables → ℤ × Variables)
    (now : BitVec 32) (fields : OauthFields) (grantType : GrantType) (ctx : OauthContext)
    (M : Variables) :
    (qidHttpcOauthHandler cipher other now (some fields) grantType ctx M).2.2 =
      setAll other (settings cipher now grantType fields) M := by
  by_cases hstatus : qcloudGetStatusCode fields.error = NO_ERROR
  · by_cases haccess : fields.accessToken = CStr.empty
    · cases grantType <;> simp [qidHttpcOauthHandler, settings, received, setAll, haccess]
    · have henc := utilAesEncryptStr_of_ne cipher haccess
      by_cases hgrant : grantType = .clientCred
      · subst hgrant
        simp [qidHttpcOauthHandler, settings, received, setAll, haccess, hstatus, henc,
          qidSysSetAppToken, Field.copyLen, Field.limit]
      · have hstores : grantType = .passwd ∨ grantType = .refreshToken := by
          cases grantType <;> simp at hgrant ⊢
        by_cases hrefresh : fields.refreshToken = CStr.empty
        · simp [qidHttpcOauthHandler, settings, received, setAll, haccess, hstatus, henc, hgrant,
            hstores, hrefresh, utilAesEncryptStr_empty]
        · simp [qidHttpcOauthHandler, settings, received, setAll, haccess, hstatus, henc, hgrant,
            hstores, hrefresh, utilAesEncryptStr_of_ne cipher hrefresh, qidSysSetRefreshToken,
            qidSysSetAuthToken, qidSysSetTokenValidPeriod, qidSysSetLastUpdateTokenTime,
            Field.copyLen, Field.limit]
  · simp [qidHttpcOauthHandler, settings, setAll, hstatus]

/-! ## What a setter keeps -/

/-- The fields that hold encrypted tokens. -/
def Field.IsToken (f : Field) : Prop := f = .appToken ∨ f = .refreshToken ∨ f = .authToken

/-- A value that its setter cuts to a plain one. -/
structure Fitting (call : Field × CStr) : Prop where
  plain : Plain call.2
  fits : call.2.len ≤ call.1.limit ∨ call.1.copyLen = call.1.limit

/-- What its setter copies of a value. -/
def cutTo (f : Field) (v : CStr) : CStr := v.take f.limit

theorem take_plain {v : CStr} (hv : Plain v) (n : ℕ) : Plain (v.take n) :=
  ⟨fun h => hv.caret (List.mem_of_mem_take h), fun h => hv.newline (List.mem_of_mem_take h),
    fun h => hv.quote (List.mem_of_mem_take h)⟩

theorem cutTo_len_le (f : Field) (v : CStr) : (cutTo f v).len ≤ f.limit := List.length_take_le _ _

theorem cutTo_of_le {f : Field} {v : CStr} (h : v.len ≤ f.limit) : cutTo f v = v :=
  Subtype.ext (List.take_of_length_le h)

/-- A setter copies what it cuts. -/
theorem qidSysSet_cutTo (other : CStr → Variables → ℤ × Variables) {f : Field} {v : CStr}
    (h : v.len ≤ f.limit ∨ f.copyLen = f.limit) (M : Variables) :
    qidSysSet other f f.copyLen v M = qidSysSet other f f.copyLen (cutTo f v) M := by
  rcases h with h | h
  · rw [cutTo_of_le h]
  · have hput : ∀ m : QidConfig, m.put f v f.copyLen = m.put f (cutTo f v) f.copyLen := by
      intro m
      simp [QidConfig.put, strncpy, h, cutTo, CStr.take]
    simp only [qidSysSet, hput]

/-- A setter of a plain value stores it, or leaves the variables. -/
theorem set_cases {c : Config} {M : Variables} (hM : Stored c.value M)
    (other : CStr → Variables → ℤ × Variables) {f : Field} {v : CStr} (hplain : Plain v)
    (hv : v.len ≤ f.limit) :
    (∃ e, e ≠ 0 ∧ qidSysSet other f f.copyLen v M = (e, M)) ∨
      ∃ M', qidSysSet other f f.copyLen v M = (0, M') ∧ Savable (c.next f v) ∧
        Stored (c.next f v) M' := by
  by_cases hread : Readable c.value
  · by_cases hsave : Savable (c.next f v)
    · obtain ⟨M', hset, hM'⟩ := set_plain hM hv hread hsave (next_plain c f hplain) other
      exact .inr ⟨M', hset, hsave, hM'⟩
    · refine .inl ⟨SYNTAX_ERROR, by decide, ?_⟩
      rw [set_eq_save hM hread, save_long]
      rw [textOf_put c hv]
      exact not_le.mp hsave
  · refine .inl ⟨-1, by decide, ?_⟩
    rw [qidSysSet, load_unreadable c.plain hM hread]

/-- The configuration holds a text in the array of a token, and can be loaded. -/
def Keeps (f : Field) (text : CStr) (M : Variables) : Prop :=
  ∃ c : Config, Stored c.value M ∧ Readable c.value ∧ c.value f = text

/-- What is saved can be read. -/
theorem readable_of_savable {r : Field → CStr} (hr : ∀ f, Plain (r f)) (h : Savable r) :
    Readable r :=
  (Nat.le_add_right _ _).trans ((length_of_savable hr h).trans (by decide +kernel))

/-- A setter leaves the token of another field. -/
theorem next_token (c : Config) {f g : Field} (v : CStr) (hg : g.IsToken) (hne : g ≠ f) :
    c.next f v g = c.value g := by
  have hloaded : loaded c.value g = c.value g := by
    apply loaded_of_ne
    rintro rfl
    simp [Field.IsToken] at hg
  have hqid : g ≠ .qid := by
    rintro rfl
    simp [Field.IsToken] at hg
  cases f <;> simp [Config.next, after, hne, hqid, hloaded]

/-- A setter that succeeds stores its token. -/
theorem keeps_of_set {c : Config} {M : Variables} (hM : Stored c.value M)
    {other : CStr → Variables → ℤ × Variables} {f : Field} (hf : f.IsToken) {v : CStr}
    (hfit : Fitting (f, v)) (hset : (qidSysSet other f f.copyLen v M).1 = 0) :
    Keeps f (cutTo f v) (qidSysSet other f f.copyLen v M).2 := by
  rw [qidSysSet_cutTo other hfit.fits] at hset ⊢
  have hplain : Plain (cutTo f v) := take_plain hfit.plain _
  have hlen := cutTo_len_le f v
  have hself : c.next f (cutTo f v) f = cutTo f v := by
    apply next_self
    rcases hf with rfl | rfl | rfl <;> trivial
  rcases set_cases hM other hplain hlen with ⟨e, he, hrun⟩ | ⟨M', hrun, hsave, hM'⟩
  · rw [hrun] at hset
    exact absurd hset he
  · rw [hrun]
    exact ⟨⟨c.next f (cutTo f v), next_plain c f hplain, next_fits c hlen⟩, hM',
      readable_of_savable (next_plain c f hplain) hsave, hself⟩

/-- A setter leaves a configuration. -/
theorem config_of_set {c : Config} {M : Variables} (hM : Stored c.value M)
    (other : CStr → Variables → ℤ × Variables) {call : Field × CStr} (hfit : Fitting call) :
    ∃ c' : Config, Stored c'.value (qidSysSet other call.1 call.1.copyLen call.2 M).2 ∧
      (Readable c.value → Readable c'.value) ∧
      ∀ g : Field, g.IsToken → g ≠ call.1 → c'.value g = c.value g := by
  rw [qidSysSet_cutTo other hfit.fits]
  have hplain : Plain (cutTo call.1 call.2) := take_plain hfit.plain _
  have hlen := cutTo_len_le call.1 call.2
  rcases set_cases hM other hplain hlen with ⟨e, -, hrun⟩ | ⟨M', hrun, hsave, hM'⟩
  · rw [hrun]
    exact ⟨c, hM, id, fun _ _ _ => rfl⟩
  · rw [hrun]
    exact ⟨⟨_, next_plain c call.1 hplain, next_fits c hlen⟩, hM',
      fun _ => readable_of_savable (next_plain c call.1 hplain) hsave,
      fun g hg hne => next_token c _ hg hne⟩

/-- So do setters one after the other. -/
theorem config_of_setAll {other : CStr → Variables → ℤ × Variables}
    {calls : List (Field × CStr)} (hfit : ∀ call ∈ calls, Fitting call) {c : Config}
    {M : Variables} (hM : Stored c.value M) :
    ∃ c' : Config, Stored c'.value (setAll other calls M) ∧
      (Readable c.value → Readable c'.value) ∧
      ∀ g : Field, g.IsToken → (∀ call ∈ calls, g ≠ call.1) → c'.value g = c.value g := by
  induction calls generalizing c M with
  | nil => exact ⟨c, hM, id, fun _ _ _ => rfl⟩
  | cons call calls ih =>
    obtain ⟨hcall, hrest⟩ := List.forall_mem_cons.mp hfit
    obtain ⟨c₁, hM₁, hread₁, hkeep₁⟩ := config_of_set hM other hcall
    obtain ⟨c₂, hM₂, hread₂, hkeep₂⟩ := ih hrest hM₁
    refine ⟨c₂, hM₂, hread₂ ∘ hread₁, fun g hg hne => ?_⟩
    obtain ⟨hne₁, hne₂⟩ := List.forall_mem_cons.mp hne
    rw [hkeep₂ g hg hne₂, hkeep₁ g hg hne₁]

/-! ## What the next request reads -/

/-- A token array without its last byte, which is never written. -/
abbrev TokenBytes := {bytes : List UInt8 // bytes.length = MAX_APPKEY_LEN}

/-- The token that the next request reads. -/
def tokenRead (cipher : Cipher) (f : Field) (M : Variables) (old : TokenBytes) : CStr :=
  CStr.read (getToken cipher (qidSysGet f) M (old.val ++ [0]) MAX_APPKEY_LEN)

/-- The setter of a field is called and succeeds. -/
def Succeeds (other : CStr → Variables → ℤ × Variables) (calls : List (Field × CStr))
    (M : Variables) (f : Field) : Prop :=
  ∃ before v rest, calls = before ++ (f, v) :: rest ∧
    (qidSysSet other f f.copyLen v (setAll other before M)).1 = NO_ERROR

/-- The longest token whose text fits. -/
def TOKEN_ROOM : ℕ := 127

theorem limit_of_isToken {f : Field} (h : f.IsToken) : f.limit = MAX_APPKEY_LEN := by
  rcases h with rfl | rfl | rfl <;> rfl

/-- A stored token is loaded. -/
theorem read_of_keeps {f : Field} (hf : f.IsToken) {text : CStr} {M : Variables}
    (h : Keeps f text M) (old : TokenBytes) :
    CStr.read (qidSysGet f M (old.val ++ [0]) MAX_APPKEY_LEN).2 = text := by
  obtain ⟨c, hM, hread, rfl⟩ := h
  have hload := load_stored c.plain hM hread
  have hne : f ≠ .ddnsStatus := by
    rintro rfl
    simp [Field.IsToken] at hf
  have hlen : (c.value f).val.length ≤ MAX_APPKEY_LEN := limit_of_isToken hf ▸ c.fits f
  rw [get_of_load hload (c.loaded_fits f), loaded_of_ne hne, strncpy, CStr.read_stored,
    List.take_of_length_le hlen, List.drop_left' old.property]
  obtain ⟨rest, hrest⟩ : ∃ rest : List UInt8,
      List.replicate (MAX_APPKEY_LEN - (c.value f).val.length) 0 ++ [0] = 0 :: rest := by
    rw [← List.replicate_succ', List.replicate_succ]
    exact ⟨_, rfl⟩
  change CStr.read ((c.value f).val ++ List.replicate _ 0 ++ [0]) = c.value f
  rw [List.append_assoc, hrest, List.append_cons]
  exact CStr.read_stored_append _ _

/-- Setters keep what one of them has stored. -/
theorem keeps_of_succeeds {other : CStr → Variables → ℤ × Variables}
    {calls : List (Field × CStr)} (hfit : ∀ call ∈ calls, Fitting call)
    (hnodup : (calls.map Prod.fst).Nodup) {c : Config} {M : Variables} (hM : Stored c.value M)
    {f : Field} (hf : f.IsToken) (h : Succeeds other calls M f) :
    ∃ v, (f, v) ∈ calls ∧ Keeps f (cutTo f v) (setAll other calls M) := by
  obtain ⟨before, v, rest, rfl, hset⟩ := h
  obtain ⟨hbefore, hfit⟩ := List.forall_mem_append.mp hfit
  obtain ⟨hcall, hrest⟩ := List.forall_mem_cons.mp hfit
  have hother : ∀ call ∈ rest, f ≠ call.1 := by
    rintro call hmem rfl
    have htail := (List.nodup_append.mp (by simpa using hnodup)).2.1
    exact (List.nodup_cons.mp htail).1 (List.mem_map_of_mem hmem)
  obtain ⟨c₁, hM₁, -, -⟩ := config_of_setAll hbefore hM
  obtain ⟨c₂, hM₂, hread, hvalue⟩ := keeps_of_set hM₁ hf hcall hset
  obtain ⟨c₃, hM₃, hread₃, hkeep⟩ := config_of_setAll hrest hM₂
  refine ⟨v, by simp, c₃, ?_, hread₃ hread, (hkeep f hf hother).trans hvalue⟩
  rw [setAll, List.foldl_append, List.foldl_cons]
  exact hM₃

section settings
variable {cipher : Cipher} {now : BitVec 32} {grantType : GrantType} {fields : OauthFields}

theorem isToken_of_received {f : Field} {token : CStr} (h : (f, token) ∈ received grantType fields) :
    f.IsToken := by
  rw [received] at h
  split at h <;> simp at h
  · exact .inl h.1
  · rcases h with h | h
    · exact .inr (.inl h.1)
    · exact .inr (.inr h.1)

theorem digitByte_free : ∀ d < 10,
    digitByte d ≠ CARET ∧ digitByte d ≠ NL ∧ digitByte d ≠ QUOTE := by
  decide

theorem decimal_plain (n : ℤ) : Plain (decimal n) := by
  have hbyte : ∀ b ∈ (decimal n).val, b ≠ CARET ∧ b ≠ NL ∧ b ≠ QUOTE := by
    intro b hb
    rcases mem_decimal hb with rfl | ⟨d, hd, rfl⟩
    · decide
    · exact digitByte_free d hd
  exact ⟨fun h => (hbyte _ h).1 rfl, fun h => (hbyte _ h).2.1 rfl, fun h => (hbyte _ h).2.2 rfl⟩

/-- The time of an update fits. -/
theorem decimal_len_le (now : BitVec 32) : (decimal now.toInt).len ≤ NAME_LEN := by
  have hlt : now.toInt.natAbs < 10 ^ (9 + 1) := by
    have h := now.toInt_lt
    have h' := now.le_toInt
    omega
  have hdigits : (numeral 10 (now.toInt.natAbs + 1) now.toInt.natAbs).length ≤ _ :=
    numeral_length_le hlt
  rw [decimal, NAME_LEN]
  split
  · change (numeral 10 _ _).length + 1 ≤ 32
    omega
  · exact hdigits.trans (by decide)

theorem settings_fitting (hexpires : Plain fields.expiresIn) :
    ∀ call ∈ settings cipher now grantType fields, Fitting call := by
  have htext : ∀ {f : Field} {token : CStr}, (f, token) ∈ received grantType fields →
      Fitting (f, hexText (cipher.encrypt token.val)) := by
    intro f token h
    refine ⟨hexText_plain _, .inr ?_⟩
    rcases isToken_of_received h with rfl | rfl | rfl <;> rfl
  intro call hcall
  rw [settings] at hcall
  split at hcall
  · rcases List.mem_append.mp hcall with hcall | hcall
    · obtain ⟨token, hmem, rfl⟩ := List.mem_map.mp hcall
      exact htext hmem
    · split at hcall
      · cases hcall
      · rcases List.mem_pair.mp hcall with rfl | rfl
        · exact ⟨hexpires, .inr rfl⟩
        · exact ⟨decimal_plain _, .inl (decimal_len_le now)⟩
  · cases hcall

theorem settings_nodup : ((settings cipher now grantType fields).map Prod.fst).Nodup := by
  rw [settings]
  split
  · cases grantType <;> simp [received]
  · exact List.nodup_nil

/-- The text that is stored for a token. -/
theorem settings_value {f : Field} {token v : CStr} (h : (f, token) ∈ received grantType fields)
    (hv : (f, v) ∈ settings cipher now grantType fields) :
    token ≠ CStr.empty ∧ v = hexText (cipher.encrypt token.val) := by
  have hnodup : ((settings cipher now grantType fields).map Prod.fst).Nodup := settings_nodup
  have hcall : token ≠ CStr.empty ∧
      (f, hexText (cipher.encrypt token.val)) ∈ settings cipher now grantType fields := by
    rw [settings] at hv ⊢
    split at hv
    case isTrue hstores =>
      rw [if_pos hstores]
      exact ⟨hstores.2 _ h, List.mem_append_left _ (List.mem_map_of_mem h)⟩
    case isFalse => cases hv
  exact ⟨hcall.1, (Prod.mk.inj (List.inj_on_of_nodup_map hnodup hv hcall.2 rfl)).2⟩

end settings

/-- What a token is read as. -/
theorem tokenRead_of_keeps (cipher : Cipher) {f : Field} (hf : f.IsToken) {token : CStr}
    (hne : token ≠ CStr.empty) {M : Variables}
    (h : Keeps f (cutTo f (hexText (cipher.encrypt token.val))) M) (old : TokenBytes) :
    tokenRead cipher f M old = token ↔ token.len ≤ TOKEN_ROOM := by
  have hload := read_of_keeps hf h old
  have hlimit := limit_of_isToken hf
  rw [tokenRead, getToken]
  constructor
  · intro hread
    have hlen := utilAesDecryptStr_len cipher
      (qidSysGet f M (old.val ++ [0]) MAX_APPKEY_LEN).2 MAX_APPKEY_LEN
    have hcut := cutTo_len_le f (hexText (cipher.encrypt token.val))
    rw [hread, hload] at hlen
    rw [hlimit, MAX_APPKEY_LEN] at hcut
    rw [TOKEN_ROOM]
    omega
  · intro hroom
    have hfits : (hexText (cipher.encrypt token.val)).len ≤ f.limit := by
      rw [hlimit, CStr.len, hexText, hexBytes_length, cipher.encrypt_length, MAX_APPKEY_LEN]
      change token.val.length ≤ 127 at hroom
      omega
    rw [cutTo_of_le hfits] at hload
    apply utilAesDecryptStr_encrypted cipher (mt len_eq_zero.mp hne) hload
    exact lt_of_le_of_lt hroom (by decide)

section blank

/-- A cipher that only pads. -/
def padding : Cipher where
  encrypt text :=
    text ++ List.replicate (16 - text.length % 16) (UInt8.ofNat (16 - text.length % 16))
  decrypt data := data.take (data.length - max 1 (data.getLastD 0).toNat)
  decrypt_encrypt text := by
    obtain ⟨k, hk⟩ : ∃ k, 16 - text.length % 16 = k + 1 :=
      Nat.exists_eq_succ_of_ne_zero (by omega)
    have hbyte : (UInt8.ofNat (k + 1)).toNat = k + 1 := by
      rw [UInt8.toNat_ofNat']
      omega
    have hlast : (text ++ List.replicate (k + 1) (UInt8.ofNat (k + 1))).getLastD 0 =
        UInt8.ofNat (k + 1) := by
      rw [List.replicate_succ', ← List.append_assoc, List.getLastD_concat]
    simp only [hk, hlast, hbyte]
    simp
  encrypt_length text := by
    simp only [List.length_append, List.length_replicate]
    omega
  decrypt_length_le data := (List.length_take_le _ _).trans (by omega)

/-- A configuration in which nothing is set. -/
def blank : Config := ⟨fun _ => CStr.empty, fun _ => empty_plain, fun _ => Nat.zero_le _⟩

/-- The variables that hold it. -/
def blankVariables : Variables := fun _ => some (textOf blank.value)

/-- An answer with one token. -/
def answer (token : CStr) : OauthFields := ⟨CStr.empty, CStr.empty, token, CStr.empty, CStr.empty⟩

theorem stored_blank : Stored blank.value blankVariables := rfl

theorem readable_blank : Readable blank.value := by
  rw [Readable]
  decide +kernel

/-- No shell is asked. -/
def noShell : CStr → Variables → ℤ × Variables := fun _ M => (0, M)

/-- There is room for a token. -/
theorem savable_blank {v : CStr} (hplain : Plain v) (hv : v.len ≤ MAX_APPKEY_LEN) :
    Savable (blank.next .appToken v) := by
  have hfree := quote_not_mem_textOf (next_plain blank .appToken hplain)
  have hlen : (textOf (blank.next .appToken v)).len = v.len + 11 := by
    rw [CStr.len, textOf_val]
    simp [front, CStr.heads, Field.all, Config.next, after, loaded, ddnsRead, blank, CStr.empty,
      CStr.len]
  rw [MAX_APPKEY_LEN] at hv
  rw [Savable, quoted_of_not_mem hfree, hlen, saveRoom_eq]
  omega

/-- Its setter succeeds. -/
theorem succeeds_blank {token : CStr} (hne : token ≠ CStr.empty) :
    Succeeds noShell (settings padding 0 .clientCred (answer token)) blankVariables .appToken := by
  have hcalls : settings padding 0 .clientCred (answer token) =
      [(.appToken, hexText (padding.encrypt token.val))] := by
    simp [settings, received, answer, hne, qcloudGetStatusCode]
  have hplain := take_plain (hexText_plain (padding.encrypt token.val)) MAX_APPKEY_LEN
  have hlen := cutTo_len_le .appToken (hexText (padding.encrypt token.val))
  obtain ⟨M', hset, -⟩ := set_plain stored_blank hlen readable_blank
    (savable_blank hplain hlen) (next_plain blank .appToken hplain) noShell
  refine ⟨[], _, [], hcalls, ?_⟩
  change (qidSysSet noShell .appToken Field.appToken.copyLen _ blankVariables).1 = 0
  rw [qidSysSet_cutTo noShell (.inr rfl), hset]

end blank

/-- A stored token of a grant is returned exactly when its text fits. -/
theorem tokenRead_iff (cipher : Cipher) {c : Config} {M : Variables} (hM : Stored c.value M)
    {grantType : GrantType} {fields : OauthFields} (hexpires : Plain fields.expiresIn)
    (other : CStr → Variables → ℤ × Variables) (now : BitVec 32) (ctx : OauthContext) {f : Field}
    {token : CStr} (hreceived : (f, token) ∈ received grantType fields)
    (hset : Succeeds other (settings cipher now grantType fields) M f) (old : TokenBytes) :
    tokenRead cipher f
      (qidHttpcOauthHandler cipher other now (some fields) grantType ctx M).2.2 old = token ↔
        token.len ≤ TOKEN_ROOM := by
  have hf := isToken_of_received hreceived
  obtain ⟨v, hv, hkeeps⟩ :=
    keeps_of_succeeds (settings_fitting hexpires) settings_nodup hM hf hset
  obtain ⟨hne, rfl⟩ := settings_value hreceived hv
  rw [handler_variables]
  exact tokenRead_of_keeps cipher hf hne hkeeps old

theorem tokenRead_iff_blank :
    tokenRead padding .appToken (qidHttpcOauthHandler padding noShell 0
      (some (answer (.ofString "token"))) .clientCred ⟨[], [], [], [], 0, 0, []⟩
      blankVariables).2.2 ⟨List.replicate MAX_APPKEY_LEN 0, List.length_replicate⟩ =
        .ofString "token" ↔ (CStr.ofString "token").len ≤ TOKEN_ROOM :=
  tokenRead_iff padding stored_blank empty_plain noShell 0 _ (List.mem_singleton_self _)
    (succeeds_blank (by decide)) _

/-- Every stored token up to the length of its array is returned. -/
def ReturnsTokens : Prop :=
  ∀ (cipher : Cipher) (c : Config) (M : Variables), Stored c.value M →
    ∀ (grantType : GrantType) (fields : OauthFields), Plain fields.expiresIn →
    ∀ (other : CStr → Variables → ℤ × Variables) (now : BitVec 32) (ctx : OauthContext) (f : Field)
      (token : CStr), (f, token) ∈ received grantType fields → token.len ≤ MAX_APPKEY_LEN →
    Plain token → Succeeds other (settings cipher now grantType fields) M f →
    ∀ old, tokenRead cipher f
      (qidHttpcOauthHandler cipher other now (some fields) grantType ctx M).2.2 old = token

/-- A token of 128 characters is not. -/
theorem not_returnsTokens : ¬ ReturnsTokens := by
  intro h
  obtain ⟨token, htoken⟩ : ∃ token : CStr, token.val = List.replicate 128 0x61 :=
    ⟨⟨List.replicate 128 0x61, by simp⟩, rfl⟩
  have hlen : token.len = 128 := by rw [CStr.len, htoken, List.length_replicate]
  have hne : token ≠ CStr.empty := by
    rintro rfl
    exact absurd hlen (by decide)
  have hplain : Plain token := by
    constructor <;> rw [htoken] <;> simp [CARET, NL, QUOTE]
  have hrec : (Field.appToken, token) ∈ received .clientCred (answer token) :=
    List.mem_singleton_self _
  have hset := succeeds_blank hne
  obtain ⟨v, hv, hkeeps⟩ := keeps_of_succeeds (settings_fitting empty_plain)
    settings_nodup stored_blank (.inl rfl) hset
  obtain ⟨-, rfl⟩ := settings_value hrec hv
  have hread := h padding blank blankVariables rfl .clientCred (answer token) empty_plain noShell 0
    ⟨[], [], [], [], 0, 0, []⟩ .appToken token hrec (by rw [hlen]; decide) hplain hset
    ⟨List.replicate MAX_APPKEY_LEN 0, List.length_replicate⟩
  rw [handler_variables] at hread
  have hroom := (tokenRead_of_keeps padding (.inl rfl) hne hkeeps _).mp hread
  rw [hlen] at hroom
  exact absurd hroom (by decide)

end EzpFirmware.Qcloud
