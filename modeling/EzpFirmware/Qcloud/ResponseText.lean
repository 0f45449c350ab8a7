import Mathlib.Data.List.GetD
import EzpFirmware.Qcloud.BufferedRequest

/-! # The text that a request hands back

The text is right if the answer is shorter than the zeroed buffer, nothing was received in front of
it or behind it, and an answer from the digest finds the buffer empty. Every call of a run has to
meet this.
-/
namespace EzpFirmware.Qcloud
open Lib UserNvram

/-- The text handed back is that of the last answer, or `HTTP_RESP_OK`. -/
def Reply.Right (r : Reply) : Prop :=
  ∀ t, r.handed = some t → t = if r.fromDigest then some HTTP_RESP_OK else r.answers.getLast?

/-! ## The size of the buffer -/

/-- The sizes of the chunks of a body. -/
def Body.sizes (x : Body) : List ℕ := x.chunks.map List.length

/-- The transfer that is left in the buffer. -/
def BareRequest.last (x : BareRequest) : Body := if x.first.status.isNone then x.second else x.first

/-- The limit when that transfer begins. -/
def BareRequest.room (x : BareRequest) (limit : ℕ) : ℕ :=
  if x.first.status.isNone then limitAfter limit 0 x.first.sizes else limit

/-- The limit when it has ended. -/
def BareRequest.roomAfter (x : BareRequest) (limit : ℕ) : ℕ :=
  limitAfter (x.room limit) 0 x.last.sizes

/-- How much that leaves in the buffer. -/
def Round.left (appAuth : Bool) (r : Round) : ℕ := ((r.asked appAuth).map (·.last.text.len)).getD 0

/-- The limit when the transfer of a round begins. -/
def Round.room (appAuth : Bool) (r : Round) (limit : ℕ) : ℕ :=
  ((r.asked appAuth).map (·.roomAfter limit)).getD limit

/-- The limit when it has ended. -/
def Round.roomAfter (appAuth : Bool) (r : Round) (limit : ℕ) : ℕ :=
  limitAfter (r.room appAuth limit) (r.left appAuth) r.body.sizes

/-- The transfer of a round finds an empty buffer that is longer than its body. -/
def Round.Clean (appAuth : Bool) (r : Round) (limit : ℕ) : Prop :=
  r.left appAuth = 0 ∧ r.body.text.len < r.room appAuth limit

theorem Body.run_size (x : Body) {b : Buf} (hb : b.len ≤ b.limit) :
    (x.run b).limit = limitAfter b.limit b.len x.sizes ∧
      (x.run b).len = b.len + x.text.len ∧ (x.run b).len ≤ (x.run b).limit :=
  receive_size x.heap hb x.chunks

theorem reset_limit (b : Buf) : b.reset.limit = b.limit := by
  simp [Buf.reset, Buf.limit]

/-- Only the last transfer of a request without flags is left. -/
theorem BareRequest.run_eq (x : BareRequest) (b : Buf) :
    x.run b = x.last.run (filled (x.room b.limit) []) := by
  have hfirst := x.first.run_size (b := b.reset) (Nat.zero_le _)
  rw [reset_limit] at hfirst
  rw [BareRequest.run, BareRequest.last, BareRequest.room]
  by_cases hlost : x.first.status.isNone = true
  · simp only [if_pos hlost]
    rw [reset_eq, hfirst.1]
    rfl
  · simp only [if_neg hlost]
    rw [reset_eq]

theorem BareRequest.run_size (x : BareRequest) (b : Buf) :
    (x.run b).limit = x.roomAfter b.limit ∧ (x.run b).len = x.last.text.len ∧
      (x.run b).len ≤ (x.run b).limit := by
  have h := x.last.run_size (b := filled (x.room b.limit) []) (Nat.zero_le _)
  rw [filled_limit (Nat.zero_le _), filled_len, List.length_nil, Nat.zero_add] at h
  rw [x.run_eq]
  exact h

/-- A body that leaves nothing leaves a zeroed buffer. -/
theorem BareRequest.run_empty {x : BareRequest} (h : x.last.text.len = 0) (b : Buf) :
    x.run b = filled (x.roomAfter b.limit) [] := by
  have hnil : x.last.chunks.flatten = [] := List.eq_nil_of_length_eq_zero h
  have hrun : x.run b = filled (x.room b.limit) [] := by
    rw [x.run_eq, Body.run, receive_filled _ (by rw [hnil]; exact Nat.zero_le _), hnil,
      List.append_nil]
  have hlimit := (x.run_size b).1
  rw [hrun, filled_limit (Nat.zero_le _)] at hlimit
  rw [hrun, hlimit]

theorem Round.before_size (appAuth : Bool) (r : Round) (b : Buf) :
    (r.before appAuth b).limit = r.room appAuth b.limit ∧
      (r.before appAuth b).len = r.left appAuth ∧
      (r.before appAuth b).len ≤ (r.before appAuth b).limit := by
  rw [Round.before, Round.room, Round.left]
  cases r.asked appAuth with
  | none => exact ⟨reset_limit b, rfl, Nat.zero_le _⟩
  | some x =>
    have h := x.run_size b.reset
    rw [reset_limit] at h
    exact h

theorem Round.before_clean {appAuth : Bool} {r : Round} (h : r.left appAuth = 0) (b : Buf) :
    r.before appAuth b = filled (r.room appAuth b.limit) [] := by
  rw [Round.left] at h
  rw [Round.before, Round.room]
  cases hasked : r.asked appAuth with
  | none => rfl
  | some x =>
    rw [hasked] at h
    have hrun := BareRequest.run_empty (x := x) h b.reset
    rw [reset_limit] at hrun
    exact hrun

/-! ## Rounds -/

section
variable {appAuth : Bool} {r : Round}

/-- The limit after a round. -/
theorem Round.run_limit (appAuth : Bool) (r : Round) (b : Buf) :
    (r.body.run (r.before appAuth b)).limit = r.roomAfter appAuth b.limit := by
  obtain ⟨hlimit, hlen, hle⟩ := r.before_size appAuth b
  rw [(r.body.run_size hle).1, hlimit, hlen, Round.roomAfter]

/-- A clean round leaves the text of its body. -/
theorem Round.run_clean {b : Buf} (h : r.Clean appAuth b.limit) (behind : List UInt8) :
    (r.body.run (r.before appAuth b)).text behind = r.body.text := by
  obtain ⟨hleft, hfits⟩ := h
  have hrun : r.body.run (r.before appAuth b) =
      filled (r.room appAuth b.limit) r.body.text.val := by
    rw [Round.before_clean hleft, Body.run]
    exact receive_filled _ (by simpa [Body.text, CStr.len] using hfits.le)
  rw [hrun]
  exact filled_text hfits behind

end

/-! ## The loop -/

section
variable {jsonCode : Option CStr → Option CStr} {m : Meeting} {flag : Flag}

/-- What is handed back at the end of the loop. -/
def Pending.Right (m : Meeting) (s : Pending) : Prop :=
  s.answers ≠ [] → s.text m.moves m.after = s.answers.getLast?

/-- A clean answer is right, whatever was there before. -/
theorem right_answered {appAuth : Bool} {r : Round} {s : Pending}
    (h : r.Clean appAuth s.buf.limit) :
    Pending.Right m ⟨r.body.run (r.before appAuth s.buf),
      some (r.body.run (r.before appAuth s.buf)).limit, s.answers ++ [r.body.text]⟩ := by
  intro _
  simp [Pending.text, Round.run_clean h]

variable (jsonCode) in
/-- The last round is right if its answer is clean, and it is answered if the first one was. -/
theorem bufferedLoop_last (hurl : m.url = true) (ret : ℤ) {s : Pending}
    (hanswered : s.answers ≠ [] → (m.round 1).body.status ≠ none)
    (hclean : (m.round 1).body.status ≠ none → (m.round 1).Clean flag.appAuth s.buf.limit) :
    Pending.Right m (bufferedLoop jsonCode m flag 1 1 ret s).2 := by
  cases hstatus : (m.round 1).body.status with
  | none =>
    have hnone : s.answers = [] := by
      by_contra h
      exact hanswered h hstatus
    have hloop : (bufferedLoop jsonCode m flag 1 1 ret s).2.answers = [] := by
      rw [bufferedLoop, hurl, handle_lost hstatus]
      simp [bufferedLoop, QID_ERR_CONNECT_SERVER, QID_SERCV_HTTP_OK, NO_ERROR, hnone]
    exact fun h => absurd hloop h
  | some code =>
    have hlow := code.property
    have hconn : code.val ≠ QID_ERR_CONNECT_SERVER := by
      rw [QID_ERR_CONNECT_SERVER]
      omega
    have hloop : (bufferedLoop jsonCode m flag 1 1 ret s).2 =
        ⟨(m.round 1).body.run ((m.round 1).before flag.appAuth s.buf),
          some ((m.round 1).body.run ((m.round 1).before flag.appAuth s.buf)).limit,
          s.answers ++ [(m.round 1).body.text]⟩ := by
      rw [bufferedLoop, hurl, handle_answered hstatus]
      simp only [if_neg hconn, one_ne_zero, if_false]
      split <;> rfl
    rw [hloop]
    exact right_answered (hclean (by simp [hstatus]))

variable (jsonCode) in
/-- Without a URL nothing is received. -/
theorem bufferedLoop_noUrl (hurl : m.url = false) (n i : ℕ) (ret : ℤ) (s : Pending) :
    (bufferedLoop jsonCode m flag n i ret s).2.answers = s.answers := by
  induction n generalizing i ret s with
  | zero => rfl
  | succ n ih =>
    rw [bufferedLoop, hurl, handle_noUrl]
    simp only
    split_ifs <;> first | rfl | rw [ih]

variable (jsonCode) in
/-- A first answer `200` ends the loop. -/
theorem bufferedLoop_ok (hurl : m.url = true) {code : {code : ℤ // 0 ≤ code}}
    (hstatus : (m.round 0).body.status = some code) (hok : code.val = QID_SERCV_HTTP_OK)
    (s : Pending) :
    bufferedLoop jsonCode m flag HTTPC_RETRY_TIMES 0 NO_ERROR s = (NO_ERROR,
      ⟨(m.round 0).body.run ((m.round 0).before flag.appAuth s.buf),
        some ((m.round 0).body.run ((m.round 0).before flag.appAuth s.buf)).limit,
        s.answers ++ [(m.round 0).body.text]⟩) := by
  rw [HTTPC_RETRY_TIMES, bufferedLoop, hurl, handle_answered hstatus]
  simp only [hok, true_or, if_true]

/-- The limit when the second round begins, behind a first one that was answered. -/
def Meeting.secondRoom (m : Meeting) (flag : Flag) (limit : ℕ) : ℕ :=
  let room := (m.round 0).roomAfter flag.appAuth limit
  if flag.auth then m.refresh.roomAfter room else room

variable (jsonCode flag m) in
/-- The condition on a request that is sent. Every answer is clean; and one that is refused for its
token, with a status, is followed by another answer, unless there is no way to get a new token. -/
def Meeting.Sound (limit : ℕ) : Prop :=
  m.url = true →
    match (m.round 0).body.status with
    | none => (m.round 1).body.status ≠ none →
        (m.round 1).Clean flag.appAuth ((m.round 0).roomAfter flag.appAuth limit)
    | some code => (m.round 0).Clean flag.appAuth limit ∧
        (code.val ≠ QID_SERCV_HTTP_OK → code.val ≠ NO_ERROR →
          qidHttpcIsTokenInvalid jsonCode (some (m.round 0).body.text) = TRUE →
          flag.auth = true ∨ flag.appAuth = true →
          (flag.auth = true → m.renewed = true) ∧ (m.round 1).body.status ≠ none ∧
            (m.round 1).Clean flag.appAuth (m.secondRoom flag limit))

/-- The loop hands back the right text when the first answer was lost. -/
theorem right_of_lost (hurl : m.url = true) (hstatus : (m.round 0).body.status = none)
    {s : Pending} (hs : s.answers = [])
    (hclean : (m.round 1).body.status ≠ none →
      (m.round 1).Clean flag.appAuth ((m.round 0).roomAfter flag.appAuth s.buf.limit)) :
    Pending.Right m (bufferedLoop jsonCode m flag HTTPC_RETRY_TIMES 0 NO_ERROR s).2 := by
  have hloop : bufferedLoop jsonCode m flag HTTPC_RETRY_TIMES 0 NO_ERROR s =
      bufferedLoop jsonCode m flag 1 1 QID_ERR_CONNECT_SERVER
        { s with buf := (m.round 0).body.run ((m.round 0).before flag.appAuth s.buf) } := by
    rw [HTTPC_RETRY_TIMES, bufferedLoop, hurl, handle_lost hstatus]
    rfl
  rw [hloop]
  apply bufferedLoop_last jsonCode hurl
  · exact fun hne => absurd hs hne
  · intro hne
    have hsecond := hclean hne
    rwa [← Round.run_limit] at hsecond

/-- And when there was one. -/
theorem right_of_answered (hurl : m.url = true) {code : {code : ℤ // 0 ≤ code}}
    (hstatus : (m.round 0).body.status = some code) {s : Pending}
    (hclean : (m.round 0).Clean flag.appAuth s.buf.limit)
    (hagain : code.val ≠ QID_SERCV_HTTP_OK → code.val ≠ NO_ERROR →
      qidHttpcIsTokenInvalid jsonCode (some (m.round 0).body.text) = TRUE →
      flag.auth = true ∨ flag.appAuth = true →
      (flag.auth = true → m.renewed = true) ∧ (m.round 1).body.status ≠ none ∧
        (m.round 1).Clean flag.appAuth (m.secondRoom flag s.buf.limit)) :
    Pending.Right m (bufferedLoop jsonCode m flag HTTPC_RETRY_TIMES 0 NO_ERROR s).2 := by
  have hlow := code.property
  have hconn : code.val ≠ QID_ERR_CONNECT_SERVER := by
    rw [QID_ERR_CONNECT_SERVER]
    omega
  have hfirst : Pending.Right m ⟨(m.round 0).body.run ((m.round 0).before flag.appAuth s.buf),
      some ((m.round 0).body.run ((m.round 0).before flag.appAuth s.buf)).limit,
      s.answers ++ [(m.round 0).body.text]⟩ := right_answered hclean
  have hread : Pending.text m.moves m.behind
      ⟨(m.round 0).body.run ((m.round 0).before flag.appAuth s.buf),
        some ((m.round 0).body.run ((m.round 0).before flag.appAuth s.buf)).limit,
        s.answers ++ [(m.round 0).body.text]⟩ = some (m.round 0).body.text := by
    simp [Pending.text, Round.run_clean hclean]
  rw [HTTPC_RETRY_TIMES, bufferedLoop, hurl, handle_answered hstatus]
  simp only [hread, if_neg hconn, if_true]
  by_cases hdone : code.val = QID_SERCV_HTTP_OK ∨ code.val = NO_ERROR
  · rw [if_pos hdone]
    exact hfirst
  rw [if_neg hdone]
  obtain ⟨hok, hzero⟩ := not_or.mp hdone
  by_cases htoken : qidHttpcIsTokenInvalid jsonCode (some (m.round 0).body.text) = TRUE
  · rw [if_neg (not_not_intro htoken)]
    by_cases hauth : flag.auth = true
    · obtain ⟨hnew, hanswered, hsecond⟩ := hagain hok hzero htoken (.inl hauth)
      rw [if_pos hauth, if_pos (hnew hauth)]
      apply bufferedLoop_last jsonCode hurl
      · exact fun _ => hanswered
      · intro _
        rw [Meeting.secondRoom, if_pos hauth, ← Round.run_limit,
          ← (m.refresh.run_size _).1] at hsecond
        exact hsecond
    · rw [if_neg hauth]
      by_cases happ : flag.appAuth = true
      · obtain ⟨-, hanswered, hsecond⟩ := hagain hok hzero htoken (.inr happ)
        rw [if_pos happ]
        apply bufferedLoop_last jsonCode hurl
        · exact fun _ => hanswered
        · intro _
          rw [Meeting.secondRoom, if_neg hauth, ← Round.run_limit] at hsecond
          exact hsecond
      · rw [if_neg happ]
        exact hfirst
  · rw [if_pos htoken]
    exact hfirst

/-- The loop hands back the right text. -/
theorem bufferedLoop_right {s : Pending} (hs : s.answers = [])
    (h : m.Sound jsonCode flag s.buf.limit) :
    Pending.Right m (bufferedLoop jsonCode m flag HTTPC_RETRY_TIMES 0 NO_ERROR s).2 := by
  cases hurl : m.url with
  | false =>
    intro hanswers
    rw [bufferedLoop_noUrl jsonCode hurl, hs] at hanswers
    exact absurd rfl hanswers
  | true =>
    have hsound := h hurl
    cases hstatus : (m.round 0).body.status with
    | none =>
      simp only [hstatus] at hsound
      exact right_of_lost hurl hstatus hs hsound
    | some code =>
      simp only [hstatus] at hsound
      exact right_of_answered hurl hstatus hsound.1 hsound.2

end

/-! ## Calls and runs -/

section
variable {sha1Csum : CStr → {sum : List UInt8 // sum.length = SHA1_SUM_LEN}}
variable {jsonCode : Option CStr → Option CStr}

theorem doBuffered_right {m : Meeting} {flag : Flag} {method : HttpMethod} {body : CStr}
    {resp : Bool} {c : Context} (h : m.Sound jsonCode flag c.buf.limit) :
    (doBuffered sha1Csum jsonCode m flag method body resp c).Right := by
  have hloop := bufferedLoop_right (s := ⟨c.buf, if resp then some c.buf.limit else none, []⟩) rfl h
  intro t ht
  simp only [doBuffered] at ht ⊢
  by_cases hnone : (bufferedLoop jsonCode m flag HTTPC_RETRY_TIMES 0 NO_ERROR
      ⟨c.buf, if resp then some c.buf.limit else none, []⟩).2.answers = []
  · rw [if_pos hnone] at ht
    cases ht
  · rw [if_neg hnone] at ht
    rw [← Option.some.inj ht, hloop hnone]
    rfl

/-- The answer from the digest in an empty buffer. -/
theorem digest_text {b : Buf} (hempty : b.len = 0) (hend : b.data.getD HTTP_RESP_OK.len 1 = 0)
    (heap : ℕ → UInt8) (behind : List UInt8) :
    (bufConcat heap b HTTP_RESP_OK.val).text behind = HTTP_RESP_OK := by
  have hlt : HTTP_RESP_OK.len < b.data.length := by
    by_contra hle
    rw [List.getD_eq_default _ _ (not_lt.mp hle)] at hend
    exact absurd hend (by decide)
  have hdrop : b.data.drop HTTP_RESP_OK.len = 0 :: b.data.drop (HTTP_RESP_OK.len + 1) := by
    rw [List.getD_eq_getElem _ _ hlt] at hend
    rw [List.drop_eq_getElem_cons hlt, hend]
  have hroom : b.len + HTTP_RESP_OK.val.length ≤ b.limit := by
    rw [hempty, Nat.zero_add]
    exact hlt.le
  rw [bufConcat_of_room heap hroom, Buf.text, poke, hempty, Nat.zero_add]
  simp only [List.take_zero, List.nil_append]
  change CStr.read (HTTP_RESP_OK.val ++ b.data.drop HTTP_RESP_OK.len ++ behind) = _
  rw [hdrop]
  simpa [CStr.stored] using
    CStr.read_stored_append HTTP_RESP_OK (b.data.drop (HTTP_RESP_OK.len + 1) ++ behind)

variable (sha1Csum jsonCode) in
/-- A call on a context. -/
def BufferedCall.reply (call : BufferedCall) (c : Context) : Reply :=
  requestBuffered sha1Csum jsonCode call.meeting call.flag call.method call.body call.resp c

/-- The digest files when the digest is looked at. -/
def BufferedCall.files (call : BufferedCall) (t : RequestType) (c : Context) : Client :=
  if call.meeting.start > c.files.ttl t then qidSysSetHashString t [] c.files else c.files

variable (sha1Csum) in
/-- The call is answered from the digest. -/
def BufferedCall.Cached (call : BufferedCall) (c : Context) : Prop :=
  ∃ t, call.flag.request = some t ∧ (call.method = .put ∨ call.method = .post) ∧
    Hit sha1Csum call.body t (call.files t c)

variable (sha1Csum jsonCode) in
/-- The condition on a call: one that is answered from the digest finds the buffer empty and zeroed,
any other is sound. -/
def BufferedCall.Sound (call : BufferedCall) (c : Context) : Prop :=
  (call.Cached sha1Csum c → c.buf.len = 0 ∧ c.buf.data.getD HTTP_RESP_OK.len 1 = 0) ∧
    (¬ call.Cached sha1Csum c → call.meeting.Sound jsonCode call.flag c.buf.limit)

variable (jsonCode) in
/-- A call that is not answered from the digest is sent with the buffer as it is. -/
theorem reply_sent {call : BufferedCall} {c : Context} (h : ¬ call.Cached sha1Csum c) :
    ∃ c', c'.buf = c.buf ∧ call.reply sha1Csum jsonCode c = doBuffered sha1Csum jsonCode
      call.meeting call.flag call.method call.body call.resp c' := by
  cases hflag : call.flag.request with
  | none => exact ⟨c, rfl, by simp only [BufferedCall.reply, requestBuffered, hflag]⟩
  | some t =>
    set c₁ := if call.meeting.start > c.files.ttl t then
        { c with files := qidSysSetHashString t [] c.files }
      else c with hc₁
    have hbuf : c₁.buf = c.buf := by
      rw [hc₁]
      split <;> rfl
    have hfiles : c₁.files = call.files t c := by
      rw [hc₁, BufferedCall.files]
      split <;> rfl
    cases hm : call.method with
    | get => exact ⟨c₁, hbuf, by simp only [BufferedCall.reply, requestBuffered, hflag, hm, ← hc₁]⟩
    | delete =>
      refine ⟨{ c₁ with
        files := qidSysSetHashStringTtl t 0 (qidSysSetHashString t [] c₁.files) }, hbuf, ?_⟩
      simp only [BufferedCall.reply, requestBuffered, hflag, hm, ← hc₁]
    | put =>
      have hmiss : ¬ Hit sha1Csum call.body t c₁.files := by
        rw [hfiles]
        exact fun hhit => h ⟨t, hflag, .inl hm, hhit⟩
      unfold Hit at hmiss
      refine ⟨c₁, hbuf, ?_⟩
      simp only [BufferedCall.reply, requestBuffered, hflag, hm, ← hc₁, if_neg hmiss]
    | post =>
      have hmiss : ¬ Hit sha1Csum call.body t c₁.files := by
        rw [hfiles]
        exact fun hhit => h ⟨t, hflag, .inr hm, hhit⟩
      unfold Hit at hmiss
      refine ⟨c₁, hbuf, ?_⟩
      simp only [BufferedCall.reply, requestBuffered, hflag, hm, ← hc₁, if_neg hmiss]

variable (jsonCode) in
/-- What a call hands back that is answered from the digest. -/
theorem reply_cached {call : BufferedCall} {c : Context} (h : call.Cached sha1Csum c) :
    (call.reply sha1Csum jsonCode c).handed =
        some (some ((bufConcat call.meeting.heap c.buf HTTP_RESP_OK.val).text call.meeting.after)) ∧
      (call.reply sha1Csum jsonCode c).fromDigest = true := by
  obtain ⟨t, hflag, hm, hhit⟩ := h
  unfold Hit BufferedCall.files at hhit
  by_cases hold : call.meeting.start > c.files.ttl t
  · rw [if_pos hold] at hhit
    rcases hm with hm | hm <;>
      simp only [BufferedCall.reply, requestBuffered, hflag, hm, if_pos hold, if_pos hhit, and_self]
  · rw [if_neg hold] at hhit
    rcases hm with hm | hm <;>
      simp only [BufferedCall.reply, requestBuffered, hflag, hm, if_neg hold, if_pos hhit, and_self]

theorem reply_right {call : BufferedCall} {c : Context} (h : call.Sound sha1Csum jsonCode c) :
    (call.reply sha1Csum jsonCode c).Right := by
  by_cases hcached : call.Cached sha1Csum c
  · obtain ⟨hempty, hend⟩ := h.1 hcached
    obtain ⟨hhanded, hdigest⟩ := reply_cached jsonCode hcached
    intro t ht
    rw [hhanded, digest_text hempty hend] at ht
    rw [hdigest, ← Option.some.inj ht]
    rfl
  · obtain ⟨c', hbuf, hreply⟩ := reply_sent jsonCode hcached
    rw [hreply]
    apply doBuffered_right
    rw [hbuf]
    exact h.2 hcached

variable (sha1Csum jsonCode) in
/-- Every text that a run of calls hands back is right. -/
def HandsBack : Context → List BufferedCall → Prop
  | _, [] => True
  | c, call :: calls => (call.reply sha1Csum jsonCode c).Right ∧
    HandsBack (call.reply sha1Csum jsonCode c).ctx calls

variable (sha1Csum jsonCode) in
/-- Every call of a run is sound where it is made. -/
def SoundRun : Context → List BufferedCall → Prop
  | _, [] => True
  | c, call :: calls => call.Sound sha1Csum jsonCode c ∧
    SoundRun (call.reply sha1Csum jsonCode c).ctx calls

/-- A run of sound calls hands back the right texts. -/
theorem handsBack_of_sound {c : Context} {calls : List BufferedCall}
    (h : SoundRun sha1Csum jsonCode c calls) : HandsBack sha1Csum jsonCode c calls := by
  induction calls generalizing c with
  | nil => trivial
  | cons call calls ih => exact ⟨reply_right h.1, ih h.2⟩

end

theorem exampleChunks_clean : (0 : UInt8) ∉ [[0x78], [0x79]].flatten := by decide

theorem ok_isStatus : 0 ≤ QID_SERCV_HTTP_OK := by decide

/-- An answer `200` with the text `xy`, in two chunks. -/
def exampleBody : Body :=
  ⟨some ⟨QID_SERCV_HTTP_OK, ok_isStatus⟩, [[0x78], [0x79]], fun _ => 0xff, exampleChunks_clean⟩

/-- A request all of whose transfers are answered so. -/
def exampleMeeting : Meeting where
  start := 1000
  finish := 1001
  url := true
  round := fun _ => ⟨none, exampleBody⟩
  refresh := ⟨exampleBody, exampleBody⟩
  renewed := false
  behind := []
  after := []
  heap := fun _ => 0xff
  moves := false

/-- A `GET`, or a `PUT` of `a` with a digest. -/
def exampleGet : BufferedCall := ⟨exampleMeeting, ⟨false, false, none⟩, .get, .empty, false⟩

def examplePut : BufferedCall :=
  ⟨exampleMeeting, ⟨true, false, some .ddns⟩, .put, .ofString "a", false⟩

/-- A context as it is created, with the digest of `a` from an earlier time. -/
def exampleContext : Context :=
  ⟨⟨fun _ => digest exampleSha1 (.ofString "a"), fun _ => 2000, none⟩,
    ⟨List.replicate PAYLOAD_LEN_MAX 0xff, 0⟩⟩

theorem exampleGet_buf : (exampleGet.reply exampleSha1 exampleJsonCode exampleContext).ctx =
    { exampleContext with buf := filled PAYLOAD_LEN_MAX [0x78, 0x79] } := by
  have hrun : (exampleBody.run exampleContext.buf.reset) = filled PAYLOAD_LEN_MAX [0x78, 0x79] := by
    have hlimit : exampleContext.buf.limit = PAYLOAD_LEN_MAX := List.length_replicate
    rw [reset_eq, hlimit]
    exact receive_filled _ (by decide)
  have hround : (exampleMeeting.round 0).body.run ((exampleMeeting.round 0).before false
      exampleContext.buf) = filled PAYLOAD_LEN_MAX [0x78, 0x79] := hrun
  simp only [BufferedCall.reply, requestBuffered, exampleGet, doBuffered, Bool.false_eq_true,
    if_false]
  rw [bufferedLoop_ok exampleJsonCode rfl rfl rfl, hround]

/-- An answer in two chunks in a fresh buffer. -/
theorem handsBack_get : HandsBack exampleSha1 exampleJsonCode exampleContext [exampleGet] := by
  apply handsBack_of_sound
  refine ⟨⟨?_, ?_⟩, trivial⟩
  · rintro ⟨t, ht, -⟩
    cases ht
  · intro _ _
    refine ⟨⟨rfl, ?_⟩, fun hne => absurd rfl hne⟩
    have hlimit : exampleContext.buf.limit = PAYLOAD_LEN_MAX := List.length_replicate
    change 2 < exampleContext.buf.limit
    rw [hlimit]
    decide

/-- The answer from the digest is appended to the answer before it. -/
theorem handsBack_fails :
    ¬ HandsBack exampleSha1 exampleJsonCode exampleContext [exampleGet, examplePut] := by
  rintro ⟨-, hput, -⟩
  rw [exampleGet_buf] at hput
  have hcached : examplePut.Cached exampleSha1
      { exampleContext with buf := filled PAYLOAD_LEN_MAX [0x78, 0x79] } := by
    refine ⟨.ddns, rfl, .inl rfl, ?_⟩
    exact hit_of_hash rfl
  obtain ⟨hhanded, hdigest⟩ := reply_cached exampleJsonCode hcached
  have htext := hput _ hhanded
  rw [hdigest, if_pos rfl] at htext
  have hconcat : (bufConcat examplePut.meeting.heap (filled PAYLOAD_LEN_MAX [0x78, 0x79])
      HTTP_RESP_OK.val).text examplePut.meeting.after =
      (CStr.ofString "xy").append HTTP_RESP_OK := by
    have hshort : ((CStr.ofString "xy").append HTTP_RESP_OK).len < PAYLOAD_LEN_MAX := by decide
    rw [bufConcat_filled _ (by decide)]
    exact filled_text hshort _
  rw [hconcat] at htext
  revert htext
  decide
end EzpFirmware.Qcloud
