import EzpFirmware.Lib.Scanning
import EzpFirmware.Qcloud.Config

/-! # Requests with a digest

A request of a type that has a digest is answered without the server when the
digest of its body is the one that is stored. What libcurl, the JSON parser and
a token refresh give back are inputs.
-/
namespace EzpFirmware.Qcloud
open Lib UserNvram

def NO_ERROR : ℤ := 0

def FALSE : ℤ := 0

def TRUE : ℤ := 1

def QID_ERR_CONNECT_SERVER : ℤ := -11

def ERR_OVERFLOW : ℤ := -976

def ERR_INVALID_VALUE : ℤ := -995

def ERR_BUFF_ALLOC_FAILED : ℤ := -1996

def QID_SERCV_HTTP_OK : ℤ := 200

def HTTP_HASHED_RESP_OK : ℤ := 100

def QID_INVALID_AUTH_TOKEN : ℤ := 1013001

def QID_TOKEN_SCOPE_UNMATCHED : ℤ := 1013002

def HTTP_RESP_OK : CStr := .ofString "\x7b\"message\": \"OK.\", \"code\": 0\x7d"

def HTTPC_RETRY_TIMES : ℕ := 2

def HASH_STRING_VALID_PERIOD : ℤ := 86400

def SHA1_SUM_LEN : ℕ := 20

/-- The types of request that have a digest. -/
inductive RequestType where
  | ddns
  | cloudlink
  | localservice
  | serviceport
  | localuser
  | accesscode
  | device
  deriving DecidableEq

/-- `HTTP_METHOD_E`. -/
inductive HttpMethod where
  | get
  | post
  | put
  | delete
  deriving DecidableEq

/-- The flags that decide the course of a request: the bits `QID_HTTPC_FLAG_AUTH` and
`QID_HTTPC_FLAG_APP_AUTH`, and the type behind `QID_HTTPC_FLAG_REQUEST`. -/
structure Flag where
  auth : Bool
  appAuth : Bool
  request : Option RequestType

/-- The digest files, the files with their time of expiry, and the buffer of the last answer. -/
structure Client where
  hash : RequestType → List UInt8
  ttl : RequestType → ℤ
  httpResp : Option CStr

/-- The status code of an answer that is not `200`. It is zero when the answer has no status line. -/
abbrev ErrorCode := {code : ℤ // 0 ≤ code ∧ code ≠ QID_SERCV_HTTP_OK}

/-- What becomes of one transfer, and whether the server has done what it asked for. A transfer
that is lost may have reached the server; an error may be sent after the work is done. -/
inductive Exchange where
  | noUrl
  | noMemory
  | lost (taken : Bool) (data : CStr)
  | ok (data : CStr)
  | error (code : ErrorCode) (taken : Bool) (data : CStr)

/-- `handle_http_request`. The second component says whether `*resp` points to the buffer. -/
def handleHttpRequest (x : Exchange) (resp : Bool) (c : Client) : ℤ × Bool × Client :=
  match x with
  | .noUrl => (ERR_NULL_POINTER, resp, c)
  | .noMemory => (ERR_OVERFLOW, resp, c)
  | .lost _ data => (QID_ERR_CONNECT_SERVER, resp, { c with httpResp := some data })
  | .ok data => (QID_SERCV_HTTP_OK, true, { c with httpResp := some data })
  | .error code _ data => (code, true, { c with httpResp := some data })

/-- What a request meets: the time at its start and end, its transfers, and what
`qid_httpc_refresh_token` returns and leaves in the buffer. -/
structure Course where
  start : ℤ
  finish : ℤ
  exchange : ℕ → Exchange
  refresh : ℤ × Option CStr

/-- What a request returns, where `*resp` points, and the transfers that were made. -/
structure Outcome where
  ret : ℤ
  resp : Bool
  client : Client
  made : List Exchange

/-- The digit for four bits. -/
def hexDigit (n : ℕ) : UInt8 := UInt8.ofNat (if n < 10 then 0x30 + n else 0x61 + (n - 10))

/-- `util_convert_hex_to_char`. -/
def utilConvertHexToChar (hex : List UInt8) : List UInt8 :=
  hex.flatMap fun b => [hexDigit (b.toNat / 16), hexDigit (b.toNat % 16)]

/-- `qid_sys_get_hash_string`. -/
def qidSysGetHashString (t : RequestType) (c : Client) : CStr :=
  utilSystemCmd (c.hash t) TMP_BUFF_LEN

/-- `qid_sys_set_hash_string`. -/
def qidSysSetHashString (t : RequestType) (text : List UInt8) (c : Client) : Client :=
  { c with hash := Function.update c.hash t text }

/-- `qid_sys_set_hash_string_ttl`. -/
def qidSysSetHashStringTtl (t : RequestType) (period : ℤ) (c : Client) : Client :=
  { c with ttl := Function.update c.ttl t period }

section
variable (sha1Csum : CStr → {sum : List UInt8 // sum.length = SHA1_SUM_LEN})
variable (jsonCode : Option CStr → Option CStr)

/-- `qid_httpc_is_token_invalid`. The parser gives the text of the entry `code`, which can be
empty, or fails. -/
def qidHttpcIsTokenInvalid (resp : Option CStr) : ℤ :=
  match jsonCode resp with
  | none => ERR_INVALID_VALUE
  | some code =>
    if code = CStr.empty then NO_ERROR
    else if atoi code = QID_INVALID_AUTH_TOKEN ∨ atoi code = QID_TOKEN_SCOPE_UNMATCHED
      then TRUE
    else FALSE

/-- The loop of `qid_httpc_request_ex`, in front of its round `i`, with `n` rounds left. -/
def retryLoop (run : Course) (flag : Flag) : ℕ → ℕ → ℤ → Bool → Client → Outcome
  | 0, _, ret, resp, c => ⟨ret, resp, c, []⟩
  | n + 1, i, _, resp, c =>
    let x := run.exchange i
    let (ret, resp, c) := handleHttpRequest x resp c
    let next := fun ret c =>
      let rest := retryLoop run flag n (i + 1) ret resp c
      { rest with made := x :: rest.made }
    if ret = QID_SERCV_HTTP_OK ∨ ret = NO_ERROR then ⟨NO_ERROR, resp, c, [x]⟩
    else if ret = QID_ERR_CONNECT_SERVER then next ret c
    else if i = 0 then
      let ret := qidHttpcIsTokenInvalid jsonCode (if resp then c.httpResp else none)
      if ret ≠ TRUE then ⟨ret, resp, c, [x]⟩
      else if flag.auth then
        let c := { c with httpResp := run.refresh.2 }
        if run.refresh.1 = NO_ERROR ∨ run.refresh.1 = QID_SERCV_HTTP_OK then next ret c
        else ⟨ret, resp, c, [x]⟩
      else if flag.appAuth then next ret c
      else ⟨ret, resp, c, [x]⟩
    else ⟨ret, resp, c, [x]⟩

/-- The digest of a body. -/
def digest (body : CStr) : List UInt8 := utilConvertHexToChar (sha1Csum body).val

/-- The part of `qid_httpc_request_ex` from `do_request` on. -/
def doRequest (run : Course) (flag : Flag) (method : HttpMethod) (body : CStr) (resp : Bool)
    (c : Client) : Outcome :=
  let out := retryLoop jsonCode run flag HTTPC_RETRY_TIMES 0 NO_ERROR resp c
  match flag.request, method with
  | some t, .put | some t, .post =>
    if out.ret = NO_ERROR then
      { out with
        client := qidSysSetHashStringTtl t (run.finish + HASH_STRING_VALID_PERIOD)
          (qidSysSetHashString t (digest sha1Csum body) out.client) }
    else out
  | _, _ => out

/-- The digest is dropped when it has expired. -/
def expire (run : Course) (t : RequestType) (c : Client) : Client :=
  if run.start > c.ttl t then qidSysSetHashString t [] c else c

/-- `qid_httpc_request_ex`. -/
def qidHttpcRequestEx (run : Course) (flag : Flag) (method : HttpMethod) (body : CStr)
    (resp : Bool) (c : Client) : Outcome :=
  match flag.request with
  | none => doRequest sha1Csum jsonCode run flag method body resp c
  | some t =>
    let c := expire run t c
    match method with
    | .delete =>
      let c := qidSysSetHashStringTtl t 0 (qidSysSetHashString t [] c)
      doRequest sha1Csum jsonCode run flag method body resp c
    | .put | .post =>
      let savedDigest := qidSysGetHashString t c
      if (digest sha1Csum body).take (SHA1_SUM_LEN * 2) =
          savedDigest.val.take (SHA1_SUM_LEN * 2) then
        match c.httpResp with
        | some data =>
          ⟨HTTP_HASHED_RESP_OK, true, { c with httpResp := some (data.append HTTP_RESP_OK) }, []⟩
        | none => ⟨ERR_BUFF_ALLOC_FAILED, resp, c, []⟩
      else doRequest sha1Csum jsonCode run flag method body resp c
    | .get => doRequest sha1Csum jsonCode run flag method body resp c

end

/-! ## The transfers of a request

Which transfers a request makes, when it counts as done, and that its loop does
not touch the digests.
-/

/-- The server has done what the transfer asked for. -/
def Exchange.taken : Exchange → Bool
  | .noUrl | .noMemory => false
  | .lost taken _ => taken
  | .ok _ => true
  | .error _ taken _ => taken

/-- A transfer answered with `200`. -/
def Exchange.isOk : Exchange → Bool
  | .ok _ => true
  | _ => false

/-- A transfer whose answer has no status. -/
def Exchange.noStatus : Exchange → Bool
  | .error code _ _ => code.val = NO_ERROR
  | _ => false

/-- A transfer that the loop takes for done: one answered with `200`, or without a status. -/
def Exchange.isDone (x : Exchange) : Bool := x.isOk || x.noStatus

/-- A transfer whose answer did not arrive. -/
def Exchange.isLost : Exchange → Bool
  | .lost _ _ => true
  | _ => false

/-- A transfer that ends in an error of its own or of the server. -/
def Exchange.fails (x : Exchange) : Bool := !x.isDone && !x.isLost

/-- A call of `qid_httpc_request_ex`. -/
structure Call where
  run : Course
  flag : Flag
  method : HttpMethod
  body : CStr
  resp : Bool

section
variable (jsonCode : Option CStr → Option CStr)

/-- The text that `qid_httpc_is_token_invalid` is given after the first transfer. -/
def Call.firstAnswer (call : Call) (c : Client) : Option CStr :=
  let (_, resp, c) := handleHttpRequest (call.run.exchange 0) call.resp c
  if resp then c.httpResp else none

/-- A new token is at hand. -/
def Call.renews (call : Call) : Bool :=
  if call.flag.auth then
    call.run.refresh.1 = NO_ERROR ∨ call.run.refresh.1 = QID_SERCV_HTTP_OK
  else call.flag.appAuth

/-- The first transfer is repeated: it was lost, or refused for its token and there is a new one. -/
def Call.Repeats (call : Call) (c : Client) : Prop :=
  (call.run.exchange 0).isLost = true ∨ (call.run.exchange 0).fails = true ∧
    qidHttpcIsTokenInvalid jsonCode (call.firstAnswer c) = TRUE ∧ call.renews = true

/-- The first transfer is refused, and its answer has a code that is not about the token. -/
def Call.Misread (call : Call) (c : Client) : Prop :=
  (call.run.exchange 0).fails = true ∧
    qidHttpcIsTokenInvalid jsonCode (call.firstAnswer c) = NO_ERROR

instance (call : Call) (c : Client) : Decidable (call.Repeats jsonCode c) :=
  inferInstanceAs (Decidable (_ ∨ _ ∧ _ ∧ _))

instance (call : Call) (c : Client) : Decidable (call.Misread jsonCode c) :=
  inferInstanceAs (Decidable (_ ∧ _))

/-- The transfers of a call that is sent. -/
def Call.tries (call : Call) (c : Client) : List Exchange :=
  if call.Repeats jsonCode c then [call.run.exchange 0, call.run.exchange 1]
  else [call.run.exchange 0]

/-- The call counts as done: an answer is misread, or a transfer is taken for done. -/
def Call.Done (call : Call) (c : Client) : Prop :=
  call.Misread jsonCode c ∨ ∃ x ∈ call.tries jsonCode c, x.isDone = true

instance (call : Call) (c : Client) : Decidable (call.Done jsonCode c) :=
  inferInstanceAs (Decidable (_ ∨ _))

end

section loop
variable {jsonCode : Option CStr → Option CStr}

variable (jsonCode) in
/-- A round that is not the first ends the loop or is the last. -/
theorem retryLoop_last (run : Course) (flag : Flag) (ret : ℤ) (resp : Bool) (c : Client) :
    (retryLoop jsonCode run flag 1 1 ret resp c).made = [run.exchange 1] ∧
      ((retryLoop jsonCode run flag 1 1 ret resp c).ret = NO_ERROR ↔
        (run.exchange 1).isDone = true) ∧
      (retryLoop jsonCode run flag 1 1 ret resp c).client.hash = c.hash ∧
      (retryLoop jsonCode run flag 1 1 ret resp c).client.ttl = c.ttl := by
  have hkinds : Exchange.isDone (run.exchange 1) =
      ((run.exchange 1).isOk || (run.exchange 1).noStatus) := rfl
  rw [hkinds]
  cases hx : run.exchange 1 with
  | noUrl => simp [retryLoop, hx, handleHttpRequest, Exchange.isOk, Exchange.noStatus,
      ERR_NULL_POINTER, NO_ERROR, QID_SERCV_HTTP_OK, QID_ERR_CONNECT_SERVER]
  | noMemory => simp [retryLoop, hx, handleHttpRequest, Exchange.isOk, Exchange.noStatus,
      ERR_OVERFLOW, NO_ERROR, QID_SERCV_HTTP_OK, QID_ERR_CONNECT_SERVER]
  | lost taken data => simp [retryLoop, hx, handleHttpRequest, Exchange.isOk, Exchange.noStatus,
      NO_ERROR, QID_SERCV_HTTP_OK, QID_ERR_CONNECT_SERVER]
  | ok data => simp [retryLoop, hx, handleHttpRequest, Exchange.isOk]
  | error code taken data =>
    obtain ⟨code, hlow, hok⟩ := code
    have hconn : code ≠ QID_ERR_CONNECT_SERVER := by
      rw [QID_ERR_CONNECT_SERVER]
      omega
    by_cases hzero : code = NO_ERROR
    · simp [retryLoop, hx, handleHttpRequest, Exchange.noStatus, hzero]
    · simp [retryLoop, hx, handleHttpRequest, Exchange.isOk, Exchange.noStatus, hzero, hconn, hok]

theorem tokenInvalid_cases (resp : Option CStr) :
    qidHttpcIsTokenInvalid jsonCode resp = ERR_INVALID_VALUE ∨
      qidHttpcIsTokenInvalid jsonCode resp = NO_ERROR ∨
      qidHttpcIsTokenInvalid jsonCode resp = TRUE := by
  unfold qidHttpcIsTokenInvalid
  split
  · exact Or.inl rfl
  · split
    · exact Or.inr (Or.inl rfl)
    · split
      · exact Or.inr (Or.inr rfl)
      · exact Or.inr (Or.inl rfl)

theorem handle_files (x : Exchange) (resp : Bool) (c : Client) :
    (handleHttpRequest x resp c).2.2.hash = c.hash ∧
      (handleHttpRequest x resp c).2.2.ttl = c.ttl := by
  cases x <;> exact ⟨rfl, rfl⟩

/-- An error is neither a success nor a lost connection. -/
theorem handle_fails {x : Exchange} (h : x.fails = true) (resp : Bool) (c : Client) :
    (handleHttpRequest x resp c).1 ≠ NO_ERROR ∧
      (handleHttpRequest x resp c).1 ≠ QID_SERCV_HTTP_OK ∧
      (handleHttpRequest x resp c).1 ≠ QID_ERR_CONNECT_SERVER := by
  cases x with
  | noUrl =>
    change ERR_NULL_POINTER ≠ _ ∧ ERR_NULL_POINTER ≠ _ ∧ ERR_NULL_POINTER ≠ _
    decide
  | noMemory =>
    change ERR_OVERFLOW ≠ _ ∧ ERR_OVERFLOW ≠ _ ∧ ERR_OVERFLOW ≠ _
    decide
  | lost taken data => cases h
  | ok data => cases h
  | error code taken data =>
    obtain ⟨code, hlow, hok⟩ := code
    change code ≠ NO_ERROR ∧ code ≠ QID_SERCV_HTTP_OK ∧ code ≠ QID_ERR_CONNECT_SERVER
    refine ⟨?_, hok, ?_⟩
    · simpa [Exchange.fails, Exchange.isDone, Exchange.isOk, Exchange.noStatus,
        Exchange.isLost] using h
    · rw [QID_ERR_CONNECT_SERVER]
      omega

/-- What the loop does, by what becomes of the transfers. -/
structure LoopSpec (jsonCode : Option CStr → Option CStr) (call : Call) (c : Client)
    (out : Outcome) : Prop where
  made : out.made = call.tries jsonCode c
  ret : out.ret = NO_ERROR ↔ call.Done jsonCode c
  hash : out.client.hash = c.hash
  ttl : out.client.ttl = c.ttl

section first
variable {call : Call} {c : Client}

/-- The first transfer was the only one. -/
theorem loopSpec_stop (hfails : (call.run.exchange 0).fails = true)
    (hstop : ¬ call.Repeats jsonCode c) (resp : Bool) {c' : Client} (hhash : c'.hash = c.hash)
    (httl : c'.ttl = c.ttl) : LoopSpec jsonCode call c
      ⟨qidHttpcIsTokenInvalid jsonCode (call.firstAnswer c), resp, c', [call.run.exchange 0]⟩ := by
  have htries : call.tries jsonCode c = [call.run.exchange 0] := if_neg hstop
  have hdone : (call.run.exchange 0).isDone = false := by
    simp only [Exchange.fails, Bool.and_eq_true, Bool.not_eq_true'] at hfails
    exact hfails.1
  refine ⟨htries.symm, ?_, hhash, httl⟩
  rw [Call.Done, htries]
  simp [Call.Misread, hfails, hdone]

/-- The second transfer is the last. -/
theorem loopSpec_next (hdone : (call.run.exchange 0).isDone = false)
    (hnext : call.Repeats jsonCode c) (ret : ℤ) (resp : Bool) {c' : Client}
    (hhash : c'.hash = c.hash) (httl : c'.ttl = c.ttl) : LoopSpec jsonCode call c
      { retryLoop jsonCode call.run call.flag 1 1 ret resp c' with
        made := call.run.exchange 0 ::
          (retryLoop jsonCode call.run call.flag 1 1 ret resp c').made } := by
  rcases retryLoop_last jsonCode call.run call.flag ret resp c' with
    ⟨hmade, hret, hhash', httl'⟩
  have htries : call.tries jsonCode c = [call.run.exchange 0, call.run.exchange 1] :=
    if_pos hnext
  have hread : ¬ call.Misread jsonCode c := by
    rintro ⟨hfails, hcode⟩
    rcases hnext with hlost | ⟨-, htoken, -⟩
    · simp [Exchange.fails, hlost] at hfails
    · rw [hcode] at htoken
      exact absurd htoken (by decide)
  refine ⟨?_, ?_, hhash'.trans hhash, httl'.trans httl⟩
  · rw [htries, hmade]
  · rw [Call.Done, htries]
    simpa [hread, hdone] using hret

/-- The first round after an error. -/
theorem retryLoop_fails (h : (call.run.exchange 0).fails = true) : LoopSpec jsonCode call c
    (retryLoop jsonCode call.run call.flag HTTPC_RETRY_TIMES 0 NO_ERROR call.resp c) := by
  have hret := handle_fails h call.resp c
  have hfiles := handle_files (call.run.exchange 0) call.resp c
  have hanswer : call.firstAnswer c =
      if (handleHttpRequest (call.run.exchange 0) call.resp c).2.1 then
        (handleHttpRequest (call.run.exchange 0) call.resp c).2.2.httpResp else none := rfl
  have hkinds : (call.run.exchange 0).isDone = false ∧ (call.run.exchange 0).isLost = false := by
    simpa [Exchange.fails] using h
  rcases hx : handleHttpRequest (call.run.exchange 0) call.resp c with ⟨r, resp, c'⟩
  rw [hx] at hret hfiles hanswer
  obtain ⟨hhash, httl⟩ : c'.hash = c.hash ∧ c'.ttl = c.ttl := hfiles
  rw [HTTPC_RETRY_TIMES, retryLoop, hx]
  simp only [hret, or_self, if_false, if_true, ← hanswer]
  by_cases htoken : qidHttpcIsTokenInvalid jsonCode (call.firstAnswer c) = TRUE
  · rw [if_neg (not_not.mpr htoken)]
    by_cases hauth : call.flag.auth = true
    · rw [if_pos hauth]
      by_cases hnew : call.run.refresh.1 = NO_ERROR ∨ call.run.refresh.1 = QID_SERCV_HTTP_OK
      · rw [if_pos hnew]
        exact loopSpec_next hkinds.1 (Or.inr ⟨h, htoken, by simpa [Call.renews, hauth] using hnew⟩)
          _ _ hhash httl
      · rw [if_neg hnew]
        refine loopSpec_stop h ?_ _ hhash httl
        simp [Call.Repeats, hkinds.2, Call.renews, hauth, hnew]
    · rw [if_neg hauth]
      by_cases happ : call.flag.appAuth = true
      · rw [if_pos happ]
        exact loopSpec_next hkinds.1 (Or.inr ⟨h, htoken, by simp [Call.renews, hauth, happ]⟩)
          _ _ hhash httl
      · rw [if_neg happ]
        refine loopSpec_stop h ?_ _ hhash httl
        simp [Call.Repeats, hkinds.2, Call.renews, hauth, happ]
  · rw [if_pos htoken]
    refine loopSpec_stop h ?_ _ hhash httl
    simp [Call.Repeats, hkinds.2, htoken]

/-- A transfer that is taken for done is no failure, and was not lost. -/
theorem Exchange.kinds_of_isDone {x : Exchange} (h : x.isDone = true) :
    x.fails = false ∧ x.isLost = false := by
  cases x with
  | noUrl => cases h
  | noMemory => cases h
  | lost taken data => cases h
  | ok data => exact ⟨rfl, rfl⟩
  | error code taken data => exact ⟨by simp [Exchange.fails, h], rfl⟩

/-- It ends the loop with a success. -/
theorem handle_done {x : Exchange} (h : x.isDone = true) (resp : Bool) (c : Client) :
    (handleHttpRequest x resp c).1 = QID_SERCV_HTTP_OK ∨
      (handleHttpRequest x resp c).1 = NO_ERROR := by
  cases x with
  | noUrl => cases h
  | noMemory => cases h
  | lost taken data => cases h
  | ok data => exact .inl rfl
  | error code taken data =>
    have hzero : code.val = NO_ERROR := by
      simpa [Exchange.isDone, Exchange.isOk, Exchange.noStatus] using h
    exact .inr hzero

variable (jsonCode c) in
/-- It is the only transfer of its call. -/
theorem tries_done (h : (call.run.exchange 0).isDone = true) :
    call.tries jsonCode c = [call.run.exchange 0] := by
  obtain ⟨hfails, hlost⟩ := Exchange.kinds_of_isDone h
  exact if_neg (by simp [Call.Repeats, hfails, hlost])

/-- The first round after a transfer that is taken for done. -/
theorem retryLoop_done (h : (call.run.exchange 0).isDone = true) : LoopSpec jsonCode call c
    (retryLoop jsonCode call.run call.flag HTTPC_RETRY_TIMES 0 NO_ERROR call.resp c) := by
  have htries := tries_done jsonCode c h
  have hround : retryLoop jsonCode call.run call.flag HTTPC_RETRY_TIMES 0 NO_ERROR call.resp c =
      ⟨NO_ERROR, (handleHttpRequest (call.run.exchange 0) call.resp c).2.1,
        (handleHttpRequest (call.run.exchange 0) call.resp c).2.2, [call.run.exchange 0]⟩ := by
    rw [HTTPC_RETRY_TIMES, retryLoop]
    simp only [handle_done h call.resp c, if_true]
  have hfiles := handle_files (call.run.exchange 0) call.resp c
  rw [hround]
  constructor
  · exact htries.symm
  · simp [Call.Done, htries, h]
  · exact hfiles.1
  · exact hfiles.2

variable (jsonCode) in
theorem retryLoop_spec (call : Call) (c : Client) : LoopSpec jsonCode call c
    (retryLoop jsonCode call.run call.flag HTTPC_RETRY_TIMES 0 NO_ERROR call.resp c) := by
  cases hx : call.run.exchange 0 with
  | ok data => exact retryLoop_done (by rw [hx]; rfl)
  | lost taken data =>
    have hround : retryLoop jsonCode call.run call.flag HTTPC_RETRY_TIMES 0 NO_ERROR call.resp c =
        { retryLoop jsonCode call.run call.flag 1 1 QID_ERR_CONNECT_SERVER call.resp
            { c with httpResp := some data } with
          made := call.run.exchange 0 :: (retryLoop jsonCode call.run call.flag 1 1
            QID_ERR_CONNECT_SERVER call.resp { c with httpResp := some data }).made } := by
      rw [HTTPC_RETRY_TIMES, retryLoop, hx]
      rfl
    rw [hround]
    exact loopSpec_next (by rw [hx]; rfl) (Or.inl (by rw [hx]; rfl)) _ _ rfl rfl
  | noUrl => exact retryLoop_fails (by rw [hx]; rfl)
  | noMemory => exact retryLoop_fails (by rw [hx]; rfl)
  | error code taken data =>
    by_cases hdone : (call.run.exchange 0).isDone = true
    · exact retryLoop_done hdone
    · have hlost : (call.run.exchange 0).isLost = false := by
        rw [hx]
        rfl
      exact retryLoop_fails (by simp [Exchange.fails, hdone, hlost])

end first
end loop

end EzpFirmware.Qcloud
