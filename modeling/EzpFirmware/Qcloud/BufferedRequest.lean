import EzpFirmware.Lib.CString
import EzpFirmware.Lib.Memory
import EzpFirmware.Qcloud.DigestCache

/-! # The buffer of an answer

An answer arrives in chunks, each of which is appended to a buffer that grows when a chunk
does not fit. Nothing appends a terminator: a text ends where the zeroes begin that the
buffer was set to before the transfer.
-/
namespace EzpFirmware.Qcloud
open Lib UserNvram

def PAYLOAD_LEN_MAX : ℕ := 4096

/-- `buf_t`. The data are as long as the limit. -/
structure Buf where
  data : List UInt8
  len : ℕ

/-- The field `limit`. -/
def Buf.limit (b : Buf) : ℕ := b.data.length

/-- `buf_size` on a buffer. Memory that `realloc` adds holds what the heap held there. -/
def bufSize (heap : ℕ → UInt8) (b : Buf) (len : ℕ) : Buf :=
  ⟨tabulate len fun i => b.data.getD i (heap i), min b.len len⟩

/-- `buf_concat`. -/
def bufConcat (heap : ℕ → UInt8) (dst : Buf) (src : List UInt8) : Buf :=
  let dst := if dst.limit - dst.len < src.length then bufSize heap dst (dst.limit + src.length)
    else dst
  let src := src.take (dst.limit - dst.len)
  ⟨poke dst.data dst.len src, dst.len + src.length⟩

/-- `fetch_data`. -/
def fetchData (heap : ℕ → UInt8) (buf : Buf) (chunk : List UInt8) : Buf :=
  let buf := if buf.limit - buf.len < chunk.length then
      bufSize heap buf (buf.limit + chunk.length)
    else buf
  bufConcat heap buf chunk

/-- The chunks of a transfer. -/
def receive (heap : ℕ → UInt8) (buf : Buf) (chunks : List (List UInt8)) : Buf :=
  chunks.foldl (fetchData heap) buf

/-- What `handle_http_request` does to the buffer first. -/
def Buf.reset (b : Buf) : Buf := ⟨List.replicate b.limit 0, 0⟩

/-- The text at the start of the data, with the memory behind them. -/
def Buf.text (b : Buf) (behind : List UInt8) : CStr := CStr.read (b.data ++ behind)

/-- The limit after chunks of the given sizes. -/
def limitAfter (limit len : ℕ) : List ℕ → ℕ
  | [] => limit
  | n :: sizes =>
    limitAfter (if limit - len < n then limit + n else limit) (len + n) sizes

/-! ## What is received -/

/-- A buffer that holds a text and is zero behind it. -/
def filled (limit : ℕ) (text : List UInt8) : Buf :=
  ⟨text ++ List.replicate (limit - text.length) 0, text.length⟩

theorem reset_eq (b : Buf) : b.reset = filled b.limit [] := rfl

theorem filled_limit {limit : ℕ} {text : List UInt8} (h : text.length ≤ limit) :
    (filled limit text).limit = limit := by
  simp [filled, Buf.limit]
  omega

@[simp] theorem filled_len (limit : ℕ) (text : List UInt8) :
    (filled limit text).len = text.length := rfl

/-- Where there is room, nothing but the bytes is written. -/
theorem bufConcat_of_room (heap : ℕ → UInt8) {b : Buf} {src : List UInt8}
    (h : b.len + src.length ≤ b.limit) :
    bufConcat heap b src = ⟨poke b.data b.len src, b.len + src.length⟩ := by
  have hroom : ¬ b.limit - b.len < src.length := by omega
  have hsrc : src.take (b.limit - b.len) = src := List.take_of_length_le (by omega)
  simp only [bufConcat, if_neg hroom, hsrc]

/-- What fits is appended, and the rest stays zero. -/
theorem bufConcat_filled (heap : ℕ → UInt8) {limit : ℕ} {text src : List UInt8}
    (h : text.length + src.length ≤ limit) :
    bufConcat heap (filled limit text) src = filled limit (text ++ src) := by
  have hlimit : (filled limit text).limit = limit := filled_limit (by omega)
  have hdrop : (text ++ List.replicate (limit - text.length) 0).drop (text.length + src.length) =
      List.replicate (limit - (text.length + src.length)) (0 : UInt8) := by
    rw [← List.drop_drop, List.drop_left, List.drop_replicate, Nat.sub_sub]
  rw [bufConcat_of_room heap (by rw [hlimit]; exact h), filled, filled]
  simp only [poke, List.take_left, hdrop, List.length_append]

theorem fetchData_filled (heap : ℕ → UInt8) {limit : ℕ} {text chunk : List UInt8}
    (h : text.length + chunk.length ≤ limit) :
    fetchData heap (filled limit text) chunk = filled limit (text ++ chunk) := by
  have hlimit : (filled limit text).limit = limit := filled_limit (by omega)
  have hroom : ¬ (filled limit text).limit - (filled limit text).len < chunk.length := by
    rw [hlimit, filled_len]
    omega
  rw [fetchData]
  simp only [if_neg hroom]
  exact bufConcat_filled heap h

/-- Chunks that fit together. -/
theorem receive_filled (heap : ℕ → UInt8) {limit : ℕ} {text : List UInt8}
    {chunks : List (List UInt8)} (h : text.length + chunks.flatten.length ≤ limit) :
    receive heap (filled limit text) chunks = filled limit (text ++ chunks.flatten) := by
  induction chunks generalizing text with
  | nil => simp [receive]
  | cons chunk chunks ih =>
    rw [List.flatten_cons, List.length_append] at h
    rw [receive, List.foldl_cons, fetchData_filled heap (by omega)]
    have hfits : (text ++ chunk).length + chunks.flatten.length ≤ limit := by
      rw [List.length_append]
      omega
    have hrest := ih hfits
    rw [receive] at hrest
    rw [hrest, List.flatten_cons, List.append_assoc]

/-- A text with a zero behind it is read as it is. -/
theorem filled_text {limit : ℕ} {text : CStr} (h : text.len < limit) (behind : List UInt8) :
    (filled limit text.val).text behind = text := by
  obtain ⟨n, hn⟩ : ∃ n, limit - text.val.length = n + 1 :=
    Nat.exists_eq_succ_of_ne_zero (by rw [CStr.len] at h; omega)
  rw [Buf.text, filled, hn, List.replicate_succ]
  simpa [CStr.stored] using CStr.read_stored_append text (List.replicate n 0 ++ behind)

/-! ## How the buffer grows -/

theorem bufSize_limit (heap : ℕ → UInt8) (b : Buf) (n : ℕ) : (bufSize heap b n).limit = n := by
  rw [Buf.limit, bufSize, tabulate_length]

/-- A chunk always finds room. -/
theorem fetchData_size (heap : ℕ → UInt8) {b : Buf} (hb : b.len ≤ b.limit) (chunk : List UInt8) :
    (fetchData heap b chunk).limit =
        (if b.limit - b.len < chunk.length then b.limit + chunk.length else b.limit) ∧
      (fetchData heap b chunk).len = b.len + chunk.length := by
  have hconcat : ∀ b' : Buf, b'.len + chunk.length ≤ b'.limit →
      (bufConcat heap b' chunk).limit = b'.limit ∧
        (bufConcat heap b' chunk).len = b'.len + chunk.length := by
    intro b' h
    rw [bufConcat_of_room heap h]
    exact ⟨poke_length h, rfl⟩
  rw [fetchData]
  by_cases hroom : b.limit - b.len < chunk.length
  · simp only [if_pos hroom]
    have hlen : (bufSize heap b (b.limit + chunk.length)).len = b.len := by
      rw [bufSize]
      exact min_eq_left (by omega)
    have h := hconcat (bufSize heap b (b.limit + chunk.length))
      (by rw [hlen, bufSize_limit]; omega)
    rw [hlen, bufSize_limit] at h
    exact h
  · simp only [if_neg hroom]
    exact hconcat b (by omega)

theorem receive_size (heap : ℕ → UInt8) {b : Buf} (hb : b.len ≤ b.limit)
    (chunks : List (List UInt8)) :
    (receive heap b chunks).limit = limitAfter b.limit b.len (chunks.map List.length) ∧
      (receive heap b chunks).len = b.len + chunks.flatten.length ∧
      (receive heap b chunks).len ≤ (receive heap b chunks).limit := by
  induction chunks generalizing b with
  | nil => exact ⟨rfl, by simp [receive], hb⟩
  | cons chunk chunks ih =>
    obtain ⟨hlimit, hlen⟩ := fetchData_size heap hb chunk
    have hfits : (fetchData heap b chunk).len ≤ (fetchData heap b chunk).limit := by
      rw [hlimit, hlen]
      split <;> omega
    obtain ⟨hl, hn, hle⟩ := ih hfits
    rw [receive, List.foldl_cons, ← receive]
    refine ⟨?_, ?_, hle⟩
    · rw [hl, hlimit, hlen, List.map_cons, limitAfter]
    · rw [hn, hlen, List.flatten_cons, List.length_append, Nat.add_assoc]

/-! ## Requests over one buffer

All requests on a context receive their answers into one buffer, and so do the requests that
are made on the way: the sign-in of the application while the header is put together, and the
refresh of a token. `*resp` points into the buffer, whatever happens to it later.
-/

/-- What `curl_easy_perform` makes of a transfer: the status code, zero if the answer has none, or
nothing if the transfer is lost; the chunks of the body; and what memory holds that is allocated
meanwhile. -/
structure Body where
  status : Option {code : ℤ // 0 ≤ code}
  chunks : List (List UInt8)
  heap : ℕ → UInt8
  clean : (0 : UInt8) ∉ chunks.flatten

/-- The text of a body. -/
def Body.text (x : Body) : CStr := ⟨x.chunks.flatten, x.clean⟩

/-- The transfer of a body. -/
def Body.run (x : Body) (b : Buf) : Buf := receive x.heap b x.chunks

/-- A request without flags: its first transfer, and the one that is made when that is lost. -/
structure BareRequest where
  first : Body
  second : Body

/-- What such a request does to the buffer. -/
def BareRequest.run (x : BareRequest) (b : Buf) : Buf :=
  let b := x.first.run b.reset
  if x.first.status.isNone then x.second.run b.reset else b

/-- What one round of the loop meets: the request for a token of the application, if it is made, and
the transfer. -/
structure Round where
  signIn : Option BareRequest
  body : Body

/-- What a request meets: the time at its start and end, whether it has a URL, its rounds, the
request for a new token and whether that gives one, the memory behind the buffer when the answer is
looked at for the token and at the end, what memory holds that is allocated for the answer from the
digest, and whether memory moves when the buffer grows. -/
structure Meeting where
  start : ℤ
  finish : ℤ
  url : Bool
  round : ℕ → Round
  refresh : BareRequest
  renewed : Bool
  behind : List UInt8
  after : List UInt8
  heap : ℕ → UInt8
  moves : Bool

/-- A request under way: the buffer, the limit it had when `*resp` was set to its data, and the texts
of the answers so far. -/
structure Pending where
  buf : Buf
  resp : Option ℕ
  answers : List CStr

/-- The text at `*resp`. There is none if the data have moved since. -/
def Pending.text (moves : Bool) (behind : List UInt8) (s : Pending) : Option CStr :=
  match s.resp with
  | none => none
  | some limit => if moves ∧ s.buf.limit ≠ limit then none else some (s.buf.text behind)

/-- The request for a token that a round makes. -/
def Round.asked (appAuth : Bool) (r : Round) : Option BareRequest :=
  if appAuth then r.signIn else none

/-- The buffer when the transfer of a round begins: it is reset, and then the header is put
together. -/
def Round.before (appAuth : Bool) (r : Round) (b : Buf) : Buf :=
  ((r.asked appAuth).map fun x => x.run b.reset).getD b.reset

/-- `handle_http_request`. -/
def handleBuffered (url appAuth : Bool) (r : Round) (s : Pending) : ℤ × Pending :=
  if !url then (ERR_NULL_POINTER, s)
  else
    let b := r.body.run (r.before appAuth s.buf)
    match r.body.status with
    | none => (QID_ERR_CONNECT_SERVER, { s with buf := b })
    | some code => (code.val, ⟨b, some b.limit, s.answers ++ [r.body.text]⟩)

section
variable {appAuth : Bool} {r : Round} {s : Pending}

theorem handle_noUrl : handleBuffered false appAuth r s = (ERR_NULL_POINTER, s) := rfl

theorem handle_lost (h : r.body.status = none) : handleBuffered true appAuth r s =
    (QID_ERR_CONNECT_SERVER, { s with buf := r.body.run (r.before appAuth s.buf) }) := by
  simp only [handleBuffered, Bool.not_true, Bool.false_eq_true, if_false, h]

theorem handle_answered {code : {code : ℤ // 0 ≤ code}} (h : r.body.status = some code) :
    handleBuffered true appAuth r s = (code.val, ⟨r.body.run (r.before appAuth s.buf),
      some (r.body.run (r.before appAuth s.buf)).limit, s.answers ++ [r.body.text]⟩) := by
  simp only [handleBuffered, Bool.not_true, Bool.false_eq_true, if_false, h]

end

section
variable (sha1Csum : CStr → {sum : List UInt8 // sum.length = SHA1_SUM_LEN})
variable (jsonCode : Option CStr → Option CStr)

/-- The loop of `qid_httpc_request_ex`, in front of its round `i`, with `n` rounds left. -/
def bufferedLoop (m : Meeting) (flag : Flag) : ℕ → ℕ → ℤ → Pending → ℤ × Pending
  | 0, _, ret, s => (ret, s)
  | n + 1, i, _, s =>
    let (ret, s) := handleBuffered m.url flag.appAuth (m.round i) s
    if ret = QID_SERCV_HTTP_OK ∨ ret = NO_ERROR then (NO_ERROR, s)
    else if ret = QID_ERR_CONNECT_SERVER then bufferedLoop m flag n (i + 1) ret s
    else if i = 0 then
      let ret := qidHttpcIsTokenInvalid jsonCode (s.text m.moves m.behind)
      if ret ≠ TRUE then (ret, s)
      else if flag.auth then
        let s := { s with buf := m.refresh.run s.buf }
        if m.renewed then bufferedLoop m flag n (i + 1) ret s else (ret, s)
      else if flag.appAuth then bufferedLoop m flag n (i + 1) ret s
      else (ret, s)
    else (ret, s)

/-- A context: the digest files, and the buffer of the last answer. -/
structure Context where
  files : Client
  buf : Buf

/-- What a request returns, and the text it hands back in `*resp` if it set that. -/
structure Reply where
  ret : ℤ
  handed : Option (Option CStr)
  /-- The answers received. -/
  answers : List CStr
  /-- The request was answered from the digest. -/
  fromDigest : Bool
  ctx : Context

/-- The part of `qid_httpc_request_ex` from `do_request` on. -/
def doBuffered (m : Meeting) (flag : Flag) (method : HttpMethod) (body : CStr) (resp : Bool)
    (c : Context) : Reply :=
  let (ret, s) := bufferedLoop jsonCode m flag HTTPC_RETRY_TIMES 0 NO_ERROR
    ⟨c.buf, if resp then some c.buf.limit else none, []⟩
  let files := match flag.request, method with
    | some t, .put | some t, .post =>
      if ret = NO_ERROR then
        qidSysSetHashStringTtl t (m.finish + HASH_STRING_VALID_PERIOD)
          (qidSysSetHashString t (digest sha1Csum body) c.files)
      else c.files
    | _, _ => c.files
  ⟨ret, if s.answers = [] then none else some (s.text m.moves m.after), s.answers, false,
    ⟨files, s.buf⟩⟩

/-- `qid_httpc_request_ex`. -/
def requestBuffered (m : Meeting) (flag : Flag) (method : HttpMethod) (body : CStr) (resp : Bool)
    (c : Context) : Reply :=
  match flag.request with
  | none => doBuffered sha1Csum jsonCode m flag method body resp c
  | some t =>
    let c := if m.start > c.files.ttl t then { c with files := qidSysSetHashString t [] c.files }
      else c
    match method with
    | .delete =>
      let c := { c with
        files := qidSysSetHashStringTtl t 0 (qidSysSetHashString t [] c.files) }
      doBuffered sha1Csum jsonCode m flag method body resp c
    | .put | .post =>
      let savedDigest := qidSysGetHashString t c.files
      if (digest sha1Csum body).take (SHA1_SUM_LEN * 2) =
          savedDigest.val.take (SHA1_SUM_LEN * 2) then
        let buf := bufConcat m.heap c.buf HTTP_RESP_OK.val
        ⟨HTTP_HASHED_RESP_OK, some (some (buf.text m.after)), [], true, { c with buf := buf }⟩
      else doBuffered sha1Csum jsonCode m flag method body resp c
    | .get => doBuffered sha1Csum jsonCode m flag method body resp c

end

/-- A call of `qid_httpc_request_ex` on a context. -/
structure BufferedCall where
  meeting : Meeting
  flag : Flag
  method : HttpMethod
  body : CStr
  resp : Bool

/-! ## The texts in the buffer

A request on a buffer returns what the request on texts returns whose transfers leave the texts that
are then in the buffer, and does the same to the digest files.
-/

/-- The buffer in front of the round behind round `i`. -/
def Meeting.advance (m : Meeting) (flag : Flag) (i : ℕ) (b : Buf) : Buf :=
  let received := (m.round i).body.run ((m.round i).before flag.appAuth b)
  let b := if m.url then received else b
  if m.url ∧ (m.round i).body.status.isNone then b
  else if flag.auth then m.refresh.run b else b

/-- The buffer in front of a round. -/
def Meeting.front (m : Meeting) (flag : Flag) (b : Buf) : ℕ → Buf
  | 0 => b
  | i + 1 => m.advance flag i (m.front flag b i)

/-- The transfer of a round. Whether the server takes what it is sent does not show in the buffer. -/
def Meeting.exchange (m : Meeting) (flag : Flag) (taken : Bool) (b : Buf) (i : ℕ) : Exchange :=
  let data := ((m.round i).body.run ((m.round i).before flag.appAuth b)).text m.behind
  if m.url then
    match (m.round i).body.status with
    | none => .lost taken data
    | some code =>
      if h : code.val = QID_SERCV_HTTP_OK then .ok data
      else .error ⟨code.val, code.property, h⟩ taken data
  else .noUrl

/-- What the request on texts meets. -/
def Meeting.course (m : Meeting) (flag : Flag) (taken : ℕ → Bool) (b : Buf) : Course where
  start := m.start
  finish := m.finish
  exchange := fun i => m.exchange flag (taken i) (m.front flag b i) i
  refresh := (if m.renewed then NO_ERROR else ERR_INVALID_VALUE,
    some ((m.front flag b 1).text m.behind))

/-- The digest files, and the text in the buffer. -/
def Context.client (c : Context) (behind : List UInt8) : Client :=
  { c.files with httpResp := some (c.buf.text behind) }

section
variable (m : Meeting) (flag : Flag)

/-- Both return the same of a transfer. -/
theorem handle_ret (taken : Bool) (b : Buf) (i : ℕ) (resp : Bool) (c : Client) (s : Pending) :
    (handleHttpRequest (m.exchange flag taken b i) resp c).1 =
      (handleBuffered m.url flag.appAuth (m.round i) s).1 := by
  cases hurl : m.url with
  | false => simp [Meeting.exchange, hurl, handleHttpRequest, handle_noUrl]
  | true =>
    cases hstatus : (m.round i).body.status with
    | none => simp [Meeting.exchange, hurl, hstatus, handleHttpRequest, handle_lost hstatus]
    | some code =>
      by_cases hok : code.val = QID_SERCV_HTTP_OK
      · simp [Meeting.exchange, hurl, hstatus, hok, handleHttpRequest, handle_answered hstatus]
      · simp [Meeting.exchange, hurl, hstatus, hok, handleHttpRequest, handle_answered hstatus]

/-- And both find the same text in `*resp`, unless the transfer was lost. -/
theorem handle_text (taken : Bool) (b : Buf) (resp : Bool) {c : Client}
    (hc : c.httpResp = some (b.text m.behind))
    (hlost : (handleHttpRequest (m.exchange flag taken b 0) resp c).1 ≠ QID_ERR_CONNECT_SERVER) :
    (handleBuffered m.url flag.appAuth (m.round 0)
        ⟨b, if resp then some b.limit else none, []⟩).2.text m.moves m.behind =
      if (handleHttpRequest (m.exchange flag taken b 0) resp c).2.1 then
        (handleHttpRequest (m.exchange flag taken b 0) resp c).2.2.httpResp else none := by
  cases hurl : m.url with
  | false =>
    cases resp <;> simp [Meeting.exchange, hurl, handleHttpRequest, handle_noUrl, Pending.text, hc]
  | true =>
    cases hstatus : (m.round 0).body.status with
    | none => simp [Meeting.exchange, hurl, hstatus, handleHttpRequest] at hlost
    | some code =>
      rw [handle_answered hstatus]
      by_cases hok : code.val = QID_SERCV_HTTP_OK
      · simp [Meeting.exchange, hurl, hstatus, hok, handleHttpRequest, Pending.text]
      · simp [Meeting.exchange, hurl, hstatus, hok, handleHttpRequest, Pending.text]

variable (jsonCode : Option CStr → Option CStr)

/-- The last round returns what its transfer returns. -/
theorem last_ret (taken : ℕ → Bool) (b : Buf) (ret ret' : ℤ) (resp : Bool) (c : Client)
    (s : Pending) : (bufferedLoop jsonCode m flag 1 1 ret s).1 =
      (retryLoop jsonCode (m.course flag taken b) flag 1 1 ret' resp c).ret := by
  have hret := handle_ret m flag (taken 1) (m.front flag b 1) 1 resp c s
  rw [bufferedLoop, retryLoop, Meeting.course]
  rcases hx : handleHttpRequest (m.exchange flag (taken 1) (m.front flag b 1) 1) resp c with
    ⟨r, resp', c'⟩
  rcases hs : handleBuffered m.url flag.appAuth (m.round 1) s with ⟨r', s'⟩
  rw [hx, hs] at hret
  obtain rfl : r = r' := hret
  simp only [one_ne_zero, if_false]
  split_ifs <;> rfl

theorem loop_ret (taken : ℕ → Bool) (b : Buf) (resp : Bool) {c : Client}
    (hc : c.httpResp = some (b.text m.behind)) :
    (bufferedLoop jsonCode m flag HTTPC_RETRY_TIMES 0 NO_ERROR
        ⟨b, if resp then some b.limit else none, []⟩).1 =
      (retryLoop jsonCode (m.course flag taken b) flag HTTPC_RETRY_TIMES 0 NO_ERROR resp c).ret := by
  have hret := handle_ret m flag (taken 0) b 0 resp c
    ⟨b, if resp then some b.limit else none, []⟩
  have htext := handle_text m flag (taken 0) b resp hc
  have hrenewed : ((m.course flag taken b).refresh.1 = NO_ERROR ∨
      (m.course flag taken b).refresh.1 = QID_SERCV_HTTP_OK) ↔ m.renewed = true := by
    cases hnew : m.renewed <;>
      simp [Meeting.course, hnew, NO_ERROR, ERR_INVALID_VALUE, QID_SERCV_HTTP_OK]
  have hfirst : (m.course flag taken b).exchange 0 = m.exchange flag (taken 0) b 0 := rfl
  rw [HTTPC_RETRY_TIMES, bufferedLoop, retryLoop, hfirst]
  rcases hx : handleHttpRequest (m.exchange flag (taken 0) b 0) resp c with ⟨r, resp', c'⟩
  rcases hs : handleBuffered m.url flag.appAuth (m.round 0)
    ⟨b, if resp then some b.limit else none, []⟩ with ⟨r', s'⟩
  rw [hx, hs] at hret htext
  obtain rfl : r = r' := hret
  simp only at htext ⊢
  by_cases hdone : r = QID_SERCV_HTTP_OK ∨ r = NO_ERROR
  · rw [if_pos hdone, if_pos hdone]
  · rw [if_neg hdone, if_neg hdone]
    by_cases hlost : r = QID_ERR_CONNECT_SERVER
    · rw [if_pos hlost, if_pos hlost]
      exact last_ret m flag jsonCode taken b _ _ _ _ _
    · rw [if_neg hlost, if_neg hlost, htext hlost]
      simp only [hrenewed, if_true]
      split_ifs <;> first | rfl | exact last_ret m flag jsonCode taken b _ _ _ _ _

end

section
variable (sha1Csum : CStr → {sum : List UInt8 // sum.length = SHA1_SUM_LEN})
variable (jsonCode : Option CStr → Option CStr)
variable (m : Meeting) (flag : Flag) (method : HttpMethod) (body : CStr) (resp : Bool)
variable (taken : ℕ → Bool)

/-- A request on a buffer, and one on texts, that return the same and leave the same files. -/
def Reply.Agrees (r : Reply) (out : Outcome) : Prop :=
  r.ret = out.ret ∧ r.ctx.files.hash = out.client.hash ∧ r.ctx.files.ttl = out.client.ttl

theorem saved_congr {c c' : Client} (hhash : c.hash = c'.hash) (httl : c.ttl = c'.ttl)
    (t : RequestType) (text : List UInt8) (period : ℤ) :
    (qidSysSetHashStringTtl t period (qidSysSetHashString t text c)).hash =
        (qidSysSetHashStringTtl t period (qidSysSetHashString t text c')).hash ∧
      (qidSysSetHashStringTtl t period (qidSysSetHashString t text c)).ttl =
        (qidSysSetHashStringTtl t period (qidSysSetHashString t text c')).ttl := by
  simp only [qidSysSetHashStringTtl, qidSysSetHashString, hhash, httl, and_self]

theorem doBuffered_agrees (c : Context) : (doBuffered sha1Csum jsonCode m flag method body resp
    c).Agrees (doRequest sha1Csum jsonCode (m.course flag taken c.buf) flag method body resp
      (c.client m.behind)) := by
  have hret := loop_ret m flag jsonCode taken c.buf resp
    (c := c.client m.behind) rfl
  have hspec := retryLoop_spec jsonCode ⟨m.course flag taken c.buf, flag, method, body, resp⟩
    (c.client m.behind)
  have hhash : c.files.hash = _ := hspec.hash.symm
  have httl : c.files.ttl = _ := hspec.ttl.symm
  unfold doBuffered doRequest
  simp only [hret]
  by_cases hzero : (retryLoop jsonCode (m.course flag taken c.buf) flag HTTPC_RETRY_TIMES 0 NO_ERROR
      resp (c.client m.behind)).ret = NO_ERROR
  · simp only [hzero, if_true]
    cases flag.request with
    | none => exact ⟨hzero.symm, hhash, httl⟩
    | some t => cases method with
      | get | delete => exact ⟨hzero.symm, hhash, httl⟩
      | put | post => exact ⟨rfl, saved_congr hhash httl _ _ _⟩
  · simp only [if_neg hzero]
    cases flag.request with
    | none => exact ⟨rfl, hhash, httl⟩
    | some t => cases method <;> exact ⟨rfl, hhash, httl⟩

/-- The client of a context whose digest has been looked at for its time. -/
theorem expire_client (t : RequestType) (c : Context) :
    expire (m.course flag taken c.buf) t (c.client m.behind) =
      (if m.start > c.files.ttl t then { c with files := qidSysSetHashString t [] c.files }
        else c : Context).client m.behind := by
  unfold expire
  by_cases hold : m.start > c.files.ttl t
  · rw [if_pos hold]
    exact if_pos hold
  · rw [if_neg hold]
    exact if_neg hold

/-- A request on a buffer is the request on texts. -/
theorem requestBuffered_agrees (c : Context) : (requestBuffered sha1Csum jsonCode m flag method body
    resp c).Agrees (qidHttpcRequestEx sha1Csum jsonCode (m.course flag taken c.buf) flag method body
      resp (c.client m.behind)) := by
  unfold requestBuffered qidHttpcRequestEx
  cases flag.request with
  | none => exact doBuffered_agrees sha1Csum jsonCode m flag method body resp taken c
  | some t =>
    simp only
    rw [expire_client]
    generalize hc' : (if m.start > c.files.ttl t then
      { c with files := qidSysSetHashString t [] c.files } else c : Context) = c'
    have hbuf : c'.buf = c.buf := by
      rw [← hc']
      split_ifs <;> rfl
    rw [← hbuf]
    have hsent := doBuffered_agrees sha1Csum jsonCode m flag method body resp taken
    cases method with
    | get => exact hsent c'
    | delete =>
      exact hsent { c' with files := qidSysSetHashStringTtl t 0 (qidSysSetHashString t [] c'.files) }
    | put | post =>
      have hsaved : qidSysGetHashString t (c'.client m.behind) =
        qidSysGetHashString t c'.files := rfl
      simp only [hsaved]
      split_ifs
      · exact ⟨rfl, rfl, rfl⟩
      · exact hsent c'

end

end EzpFirmware.Qcloud
