import EzpFirmware.Qcloud.DigestCache

/-! # What the return value of a request says

Zero stands for an answer `200`, a positive value for another answer or for the digest, a
negative one for an error. The loop also returns what it learns about the token, and zero
stands there for a token that is valid. And zero is the status of an answer without a status line.
-/
namespace EzpFirmware.Qcloud
open Lib UserNvram

/-- The status code that a transfer received, zero for an answer without one. -/
def Exchange.status : Exchange → Option ℤ
  | .ok _ => some QID_SERCV_HTTP_OK
  | .error code _ _ => some code
  | .noUrl | .noMemory | .lost _ _ => none

/-- The status code of the last answer received. -/
def lastStatus (made : List Exchange) : Option ℤ := (made.filterMap Exchange.status).getLast?

/-- The return value as it is documented. -/
def Says (ret : ℤ) (last : Option ℤ) (digest : Prop) : Prop :=
  ret = NO_ERROR ∧ last = some QID_SERCV_HTTP_OK ∨
    0 < ret ∧ ((∃ code, last = some code ∧ code ≠ QID_SERCV_HTTP_OK) ∨ digest) ∨ ret < 0

/-- A request reports its outcome, and is not sent too often. -/
def Outcome.Reported (out : Outcome) : Prop :=
  Says out.ret (lastStatus out.made) (out.ret = HTTP_HASHED_RESP_OK ∧ out.made = []) ∧
    out.made.length ≤ HTTPC_RETRY_TIMES

section
variable (sha1Csum : CStr → {sum : List UInt8 // sum.length = SHA1_SUM_LEN})
variable (jsonCode : Option CStr → Option CStr)

/-- The digest of the body is the one that is stored. -/
def Call.Hits (call : Call) (c : Client) : Prop :=
  ∃ t, call.flag.request = some t ∧ (call.method = .put ∨ call.method = .post) ∧
    Hit sha1Csum call.body t (expire call.run t c)

/-- The first transfer received no answer and was not lost, an older answer says that the token is
invalid, and there is no new one. -/
def Call.Stale (call : Call) (c : Client) : Prop :=
  (call.run.exchange 0).fails = true ∧ (call.run.exchange 0).status = none ∧
    qidHttpcIsTokenInvalid jsonCode (call.firstAnswer c) = TRUE ∧ call.renews = false

/-- A transfer of the call is answered without a status. -/
def Call.Unmarked (call : Call) (c : Client) : Prop :=
  ∃ x ∈ call.tries jsonCode c, x.noStatus = true

end

section loop
variable {jsonCode : Option CStr → Option CStr} {call : Call} {c : Client}

theorem Exchange.status_of_isOk {x : Exchange} (h : x.isOk = true) :
    x.status = some QID_SERCV_HTTP_OK := by
  cases x <;> first | rfl | cases h

theorem Exchange.status_ne_of_fails {x : Exchange} (h : x.fails = true) {code : ℤ}
    (hcode : x.status = some code) : code ≠ QID_SERCV_HTTP_OK := by
  cases x with
  | error e taken data =>
    cases hcode
    exact e.property.2
  | noUrl => cases hcode
  | noMemory => cases hcode
  | lost taken data => cases h
  | ok data => cases h

/-- A transfer that is taken for done and has a status is answered with `200`. -/
theorem Exchange.isOk_of_isDone {x : Exchange} (h : x.isDone = true) (hstatus : x.noStatus = false) :
    x.isOk = true := by
  simpa [Exchange.isDone, hstatus] using h

theorem Exchange.status_of_noStatus {x : Exchange} (h : x.noStatus = true) :
    x.status = some NO_ERROR := by
  cases x with
  | error code taken data => simpa [Exchange.noStatus, Exchange.status] using h
  | noUrl => cases h
  | noMemory => cases h
  | lost taken data => cases h
  | ok data => cases h

/-- A success is not what an answer without a status stands for. -/
theorem not_says_noStatus : ¬ Says NO_ERROR (some NO_ERROR) False := by
  rintro (⟨-, hok⟩ | ⟨hpos, -⟩ | hneg)
  · exact absurd hok (by decide)
  · exact absurd hpos (lt_irrefl _)
  · exact absurd hneg (lt_irrefl _)

theorem lastStatus_append (made : List Exchange) {x : Exchange} {code : ℤ}
    (h : x.status = some code) : lastStatus (made ++ [x]) = some code := by
  simp [lastStatus, h]

@[simp] theorem lastStatus_singleton (x : Exchange) : lastStatus [x] = x.status := by
  cases h : x.status <;> simp [lastStatus, h]

/-- The last round reports its own transfer, unless that is answered without a status. -/
theorem last_signs (run : Course) (flag : Flag) (ret : ℤ) (resp : Bool) (c : Client) (x : Exchange) :
    Says (retryLoop jsonCode run flag 1 1 ret resp c).ret (lastStatus [x, run.exchange 1]) False ↔
      (run.exchange 1).noStatus = false := by
  have hlast : ∀ {code}, (run.exchange 1).status = some code →
      lastStatus [x, run.exchange 1] = some code := lastStatus_append [x]
  cases hx : run.exchange 1 with
  | noUrl =>
    refine iff_of_true (.inr (.inr ?_)) rfl
    simp [retryLoop, hx, handleHttpRequest, ERR_NULL_POINTER, NO_ERROR, QID_SERCV_HTTP_OK,
      QID_ERR_CONNECT_SERVER]
  | noMemory =>
    refine iff_of_true (.inr (.inr ?_)) rfl
    simp [retryLoop, hx, handleHttpRequest, ERR_OVERFLOW, NO_ERROR, QID_SERCV_HTTP_OK,
      QID_ERR_CONNECT_SERVER]
  | lost taken data =>
    refine iff_of_true (.inr (.inr ?_)) rfl
    simp [retryLoop, hx, handleHttpRequest, NO_ERROR, QID_SERCV_HTTP_OK, QID_ERR_CONNECT_SERVER]
  | ok data =>
    refine iff_of_true (.inl ⟨?_, ?_⟩) rfl
    · simp [retryLoop, hx, handleHttpRequest]
    · rw [hx] at hlast
      exact hlast rfl
  | error code taken data =>
    rw [hx] at hlast
    rw [hlast rfl]
    obtain ⟨code, hlow, hok⟩ := code
    have hconn : code ≠ QID_ERR_CONNECT_SERVER := by
      rw [QID_ERR_CONNECT_SERVER]
      omega
    by_cases hzero : code = NO_ERROR
    · have hret : (retryLoop jsonCode run flag 1 1 ret resp c).ret = NO_ERROR := by
        simp [retryLoop, hx, handleHttpRequest, hzero]
      have hnone : Exchange.noStatus (.error ⟨code, hlow, hok⟩ taken data) = true := by
        simp [Exchange.noStatus, hzero]
      subst hzero
      rw [hret, hnone]
      exact iff_of_false not_says_noStatus (by simp)
    · have hret : (retryLoop jsonCode run flag 1 1 ret resp c).ret = code := by
        simp [retryLoop, hx, handleHttpRequest, hzero, hconn, hok]
      have hsome : Exchange.noStatus (.error ⟨code, hlow, hok⟩ taken data) = false := by
        simp [Exchange.noStatus, hzero]
      have hpos : 0 < code := lt_of_le_of_ne hlow (Ne.symm hzero)
      rw [hret]
      exact iff_of_true (.inr (.inl ⟨hpos, .inl ⟨code, rfl, hok⟩⟩)) hsome

variable (jsonCode c) in
/-- A first transfer that fails is repeated, or the loop returns what it learned about the token. -/
theorem loop_fails (h : (call.run.exchange 0).fails = true) :
    (∃ ret resp c', (retryLoop jsonCode call.run call.flag HTTPC_RETRY_TIMES 0 NO_ERROR call.resp
        c).ret = (retryLoop jsonCode call.run call.flag 1 1 ret resp c').ret) ∧
      call.Repeats jsonCode c ∨
    (retryLoop jsonCode call.run call.flag HTTPC_RETRY_TIMES 0 NO_ERROR call.resp c).ret =
        qidHttpcIsTokenInvalid jsonCode (call.firstAnswer c) ∧ ¬ call.Repeats jsonCode c := by
  have hret := handle_fails h call.resp c
  have hanswer : call.firstAnswer c =
      if (handleHttpRequest (call.run.exchange 0) call.resp c).2.1 then
        (handleHttpRequest (call.run.exchange 0) call.resp c).2.2.httpResp else none := rfl
  have hlost : (call.run.exchange 0).isLost = false := by
    simp only [Exchange.fails, Bool.and_eq_true, Bool.not_eq_true'] at h
    exact h.2
  have hrepeats : call.Repeats jsonCode c ↔
      qidHttpcIsTokenInvalid jsonCode (call.firstAnswer c) = TRUE ∧ call.renews = true := by
    simp [Call.Repeats, hlost, h]
  rcases hx : handleHttpRequest (call.run.exchange 0) call.resp c with ⟨r, resp, c'⟩
  rw [hx] at hret hanswer
  rw [hrepeats, HTTPC_RETRY_TIMES, retryLoop, hx]
  simp only [hret, or_self, if_false, if_true, ← hanswer]
  by_cases htoken : qidHttpcIsTokenInvalid jsonCode (call.firstAnswer c) = TRUE
  · rw [if_neg (not_not.mpr htoken)]
    by_cases hauth : call.flag.auth = true
    · rw [if_pos hauth]
      by_cases hnew : call.run.refresh.1 = NO_ERROR ∨ call.run.refresh.1 = QID_SERCV_HTTP_OK
      · rw [if_pos hnew]
        exact .inl ⟨⟨_, _, _, rfl⟩, htoken, by simpa [Call.renews, hauth] using hnew⟩
      · rw [if_neg hnew]
        exact .inr ⟨rfl, by simp [Call.renews, hauth, hnew]⟩
    · rw [if_neg hauth]
      by_cases happ : call.flag.appAuth = true
      · rw [if_pos happ]
        exact .inl ⟨⟨_, _, _, rfl⟩, htoken, by simp [Call.renews, hauth, happ]⟩
      · rw [if_neg happ]
        exact .inr ⟨rfl, by simp [Call.renews, hauth, happ]⟩
  · rw [if_pos htoken]
    exact .inr ⟨rfl, fun hboth => htoken hboth.1⟩

theorem tries_length (jsonCode : Option CStr → Option CStr) (call : Call) (c : Client) :
    (call.tries jsonCode c).length ≤ HTTPC_RETRY_TIMES := by
  rw [Call.tries, HTTPC_RETRY_TIMES]
  split <;> simp

/-- A first transfer that is lost is repeated. -/
theorem loop_lost (h : (call.run.exchange 0).isLost = true) :
    ∃ ret resp c', (retryLoop jsonCode call.run call.flag HTTPC_RETRY_TIMES 0 NO_ERROR call.resp
      c).ret = (retryLoop jsonCode call.run call.flag 1 1 ret resp c').ret := by
  cases hx : call.run.exchange 0 with
  | lost taken data =>
    refine ⟨QID_ERR_CONNECT_SERVER, call.resp, { c with httpResp := some data }, ?_⟩
    rw [HTTPC_RETRY_TIMES, retryLoop, hx]
    rfl
  | noUrl => simp [hx, Exchange.isLost] at h
  | noMemory => simp [hx, Exchange.isLost] at h
  | ok data => simp [hx, Exchange.isLost] at h
  | error code taken data => simp [hx, Exchange.isLost] at h

/-- What is learned about the token says something about the transfer only if it is not that the
token is valid, and not that it is invalid when nothing was received. -/
theorem stop_signs {x : Exchange} (hx : x.fails = true) (text : Option CStr) :
    Says (qidHttpcIsTokenInvalid jsonCode text) x.status False ↔
      qidHttpcIsTokenInvalid jsonCode text ≠ NO_ERROR ∧
        (qidHttpcIsTokenInvalid jsonCode text = TRUE → x.status ≠ none) := by
  have hne : x.status ≠ some QID_SERCV_HTTP_OK :=
    fun h => Exchange.status_ne_of_fails hx h rfl
  have hother : (∃ code, x.status = some code ∧ code ≠ QID_SERCV_HTTP_OK) ↔ x.status ≠ none := by
    constructor
    · rintro ⟨code, hcode, -⟩
      simp [hcode]
    · intro h
      obtain ⟨code, hcode⟩ := Option.ne_none_iff_exists'.mp h
      exact ⟨code, hcode, Exchange.status_ne_of_fails hx hcode⟩
  rw [Says, hother]
  have hcases : qidHttpcIsTokenInvalid jsonCode text = ERR_INVALID_VALUE ∨ _ :=
    tokenInvalid_cases text
  rcases hcases with h | h | h
  · simp [h, ERR_INVALID_VALUE, NO_ERROR, TRUE]
  · simp [h, hne, NO_ERROR]
  · simp [h, NO_ERROR, TRUE]

/-- When the transfer is repeated, the second one decides what the loop returns. -/
theorem loop_repeats (h : call.Repeats jsonCode c) :
    ∃ ret resp c', (retryLoop jsonCode call.run call.flag HTTPC_RETRY_TIMES 0 NO_ERROR call.resp
      c).ret = (retryLoop jsonCode call.run call.flag 1 1 ret resp c').ret := by
  rcases h with hlost | ⟨hfails, htoken, hnew⟩
  · exact loop_lost hlost
  · rcases loop_fails jsonCode c hfails with ⟨hret, -⟩ | ⟨-, hstop⟩
    · exact hret
    · exact absurd (.inr ⟨hfails, htoken, hnew⟩) hstop

/-- The token was invalid then, or not asked for. -/
theorem read_of_repeats (h : call.Repeats jsonCode c) :
    ¬ call.Misread jsonCode c ∧ ¬ call.Stale jsonCode c := by
  rcases h with hlost | ⟨hfails, htoken, hnew⟩
  · simp [Call.Misread, Call.Stale, Exchange.fails, hlost]
  · simp [Call.Misread, Call.Stale, htoken, hnew, TRUE, NO_ERROR]

/-- An answer without a status is not followed by another transfer. -/
theorem noStatus_of_repeats (h : call.Repeats jsonCode c) :
    (call.run.exchange 0).noStatus = false := by
  rw [← Bool.not_eq_true]
  intro hstatus
  have hdone : (call.run.exchange 0).isDone = true := by simp [Exchange.isDone, hstatus]
  have htries : call.tries jsonCode c = [call.run.exchange 0, call.run.exchange 1] := if_pos h
  rw [tries_done jsonCode c hdone] at htries
  exact absurd htries (by simp)

/-- A failure that is not repeated returns what is learned about the token. -/
theorem stop_reported (hfails : (call.run.exchange 0).fails = true)
    (hstop : ¬ call.Repeats jsonCode c) :
    Says (retryLoop jsonCode call.run call.flag HTTPC_RETRY_TIMES 0 NO_ERROR call.resp c).ret
        (call.run.exchange 0).status False ↔
      ¬ call.Misread jsonCode c ∧ ¬ call.Stale jsonCode c ∧
        (call.run.exchange 0).noStatus = false := by
  have hnew : qidHttpcIsTokenInvalid jsonCode (call.firstAnswer c) = TRUE →
      call.renews = false := by
    intro htoken
    rw [← Bool.not_eq_true]
    exact fun h => hstop (.inr ⟨hfails, htoken, h⟩)
  have hstatus : (call.run.exchange 0).noStatus = false := by
    rw [← Bool.not_eq_true]
    intro h
    simp [Exchange.fails, Exchange.isDone, h] at hfails
  rcases loop_fails jsonCode c hfails with ⟨-, h⟩ | ⟨hret, -⟩
  · exact absurd h hstop
  · rw [hret, stop_signs hfails, Call.Misread, Call.Stale]
    simp only [hfails, true_and, hstatus, and_true]
    tauto

/-- A transfer that is taken for done returns 0, which is right if it has a status. -/
theorem done_reported (hdone : (call.run.exchange 0).isDone = true) :
    Says (retryLoop jsonCode call.run call.flag HTTPC_RETRY_TIMES 0 NO_ERROR call.resp c).ret
      (call.run.exchange 0).status False ↔ (call.run.exchange 0).noStatus = false := by
  have hzero := (retryLoop_spec jsonCode call c).ret.mpr
    (.inr ⟨_, first_mem_tries call c, hdone⟩)
  rw [hzero]
  cases hstatus : (call.run.exchange 0).noStatus with
  | true =>
    rw [Exchange.status_of_noStatus hstatus]
    exact iff_of_false not_says_noStatus (by simp)
  | false =>
    rw [Exchange.status_of_isOk (Exchange.isOk_of_isDone hdone hstatus)]
    exact iff_of_true (.inl ⟨rfl, rfl⟩) rfl

variable (jsonCode) in
/-- The loop reports the transfers unless the answer that it looks at for the token misleads it, or
an answer has no status. -/
theorem loop_reported (call : Call) (c : Client) :
    (retryLoop jsonCode call.run call.flag HTTPC_RETRY_TIMES 0 NO_ERROR call.resp c).Reported ↔
      ¬ call.Misread jsonCode c ∧ ¬ call.Stale jsonCode c ∧ ¬ call.Unmarked jsonCode c := by
  have hspec := retryLoop_spec jsonCode call c
  have hsent : ∀ ret, (ret = HTTP_HASHED_RESP_OK ∧ call.tries jsonCode c = [] : Prop) = False :=
    fun ret => eq_false fun h => absurd h.2 (List.ne_nil_of_mem (first_mem_tries call c))
  rw [Outcome.Reported, hspec.made, and_iff_left (tries_length jsonCode call c), hsent]
  by_cases hrepeats : call.Repeats jsonCode c
  · have htries : call.tries jsonCode c = [call.run.exchange 0, call.run.exchange 1] :=
      if_pos hrepeats
    obtain ⟨ret, resp, c', hret⟩ := loop_repeats hrepeats
    rw [htries, hret, last_signs, Call.Unmarked, htries]
    simp [read_of_repeats hrepeats, noStatus_of_repeats hrepeats]
  · have htries : call.tries jsonCode c = [call.run.exchange 0] := if_neg hrepeats
    have hmarked : ¬ call.Unmarked jsonCode c ↔ (call.run.exchange 0).noStatus = false := by
      simp [Call.Unmarked, htries]
    rw [htries, lastStatus_singleton, hmarked]
    by_cases hfails : (call.run.exchange 0).fails = true
    · exact stop_reported hfails hrepeats
    · have hlost : (call.run.exchange 0).isLost = false := by
        rw [← Bool.not_eq_true]
        exact fun h => hrepeats (.inl h)
      have hdone : (call.run.exchange 0).isDone = true := by
        simpa [Exchange.fails, hlost] using hfails
      rw [done_reported hdone]
      exact ⟨fun h => ⟨fun hread => hfails hread.1, fun hstale => hfails hstale.1, h⟩,
        fun h => h.2.2⟩

variable {sha1Csum : CStr → {sum : List UInt8 // sum.length = SHA1_SUM_LEN}}

theorem reported_digest (resp : Bool) (c : Client) :
    (⟨HTTP_HASHED_RESP_OK, resp, c, []⟩ : Outcome).Reported :=
  ⟨.inr (.inl ⟨Int.natCast_pos.mpr (Nat.succ_pos 99), .inr ⟨rfl, rfl⟩⟩), Nat.zero_le _⟩

theorem reported_noBuffer (resp : Bool) (c : Client) :
    (⟨ERR_BUFF_ALLOC_FAILED, resp, c, []⟩ : Outcome).Reported :=
  ⟨.inr (.inr (Int.negSucc_lt_zero 1995)), Nat.zero_le _⟩

/-- A request with the stored digest is answered from the digest, or fails for want of a buffer. -/
theorem reported_of_hits (h : call.Hits sha1Csum c) : (call.out sha1Csum jsonCode c).Reported := by
  obtain ⟨t, hflag, hm, hhit⟩ := h
  unfold Hit at hhit
  rcases hm with hm | hm
  · simp only [Call.out, qidHttpcRequestEx, hflag, hm, if_pos hhit]
    cases (expire call.run t c).httpResp with
    | none => exact reported_noBuffer _ _
    | some data => exact reported_digest _ _
  · simp only [Call.out, qidHttpcRequestEx, hflag, hm, if_pos hhit]
    cases (expire call.run t c).httpResp with
    | none => exact reported_noBuffer _ _
    | some data => exact reported_digest _ _

/-- What is done with the digest files leaves the outcome as the loop gives it. -/
theorem doRequest_outcome (run : Course) (flag : Flag) (method : HttpMethod) (body : CStr)
    (resp : Bool) (c : Client) :
    (doRequest sha1Csum jsonCode run flag method body resp c).Reported ↔
      (retryLoop jsonCode run flag HTTPC_RETRY_TIMES 0 NO_ERROR resp c).Reported := by
  unfold doRequest
  simp only
  split
  · split <;> rfl
  · split <;> rfl
  · rfl

variable (jsonCode) in
/-- The client that a request is sent with: the digest files may have changed. -/
theorem out_sent (h : ¬ call.Hits sha1Csum c) : ∃ c', c'.httpResp = c.httpResp ∧
    call.out sha1Csum jsonCode c = doRequest sha1Csum jsonCode call.run call.flag call.method
      call.body call.resp c' := by
  cases hflag : call.flag.request with
  | none => exact ⟨c, rfl, by simp only [Call.out, qidHttpcRequestEx, hflag]⟩
  | some t =>
    have hexpire : (expire call.run t c).httpResp = c.httpResp := by
      unfold expire
      split <;> rfl
    cases hm : call.method with
    | get => exact ⟨_, hexpire, by simp only [Call.out, qidHttpcRequestEx, hflag, hm]⟩
    | delete =>
      refine ⟨qidSysSetHashStringTtl t 0 (qidSysSetHashString t [] (expire call.run t c)),
        hexpire, ?_⟩
      simp only [Call.out, qidHttpcRequestEx, hflag, hm]
    | put =>
      refine ⟨_, hexpire, ?_⟩
      rw [← hm]
      exact out_miss jsonCode hflag (.inl hm) fun hhit => h ⟨t, hflag, .inl hm, hhit⟩
    | post =>
      refine ⟨_, hexpire, ?_⟩
      rw [← hm]
      exact out_miss jsonCode hflag (.inr hm) fun hhit => h ⟨t, hflag, .inr hm, hhit⟩

/-- The answer that is looked at for the token depends on the buffer alone. -/
theorem firstAnswer_congr (call : Call) {c c' : Client} (h : c'.httpResp = c.httpResp) :
    call.firstAnswer c' = call.firstAnswer c := by
  unfold Call.firstAnswer handleHttpRequest
  cases call.run.exchange 0 <;> simp [h]

theorem tries_congr (call : Call) {c c' : Client} (h : call.firstAnswer c' = call.firstAnswer c) :
    call.tries jsonCode c' = call.tries jsonCode c := by
  have hrepeats : call.Repeats jsonCode c' ↔ call.Repeats jsonCode c := by
    simp only [Call.Repeats, h]
  simp only [Call.tries, hrepeats]

variable (sha1Csum jsonCode) in
/-- A request reports its outcome exactly if it is answered from the digest, or the answer that
it looks at for the token does not mislead it and no answer is without a status. -/
theorem reported_iff (call : Call) (c : Client) :
    (call.out sha1Csum jsonCode c).Reported ↔
      call.Hits sha1Csum c ∨
        ¬ call.Misread jsonCode c ∧ ¬ call.Stale jsonCode c ∧ ¬ call.Unmarked jsonCode c := by
  by_cases h : call.Hits sha1Csum c
  · exact iff_of_true (reported_of_hits h) (.inl h)
  · obtain ⟨c', hresp, hout⟩ := out_sent jsonCode h
    have hanswer := firstAnswer_congr call hresp
    rw [hout, doRequest_outcome, loop_reported, or_iff_right h]
    simp only [Call.Misread, Call.Stale, Call.Unmarked, tries_congr call hanswer, hanswer]

end loop

theorem serverError_code : (0 : ℤ) ≤ 500 ∧ (500 : ℤ) ≠ QID_SERCV_HTTP_OK := by decide

/-- A request that the server refuses for a reason of its own. -/
def refusedCall : Call :=
  exampleCall "a" (.error ⟨500, serverError_code⟩ false (.ofString "\x7b\"code\": 1\x7d"))

/-- The refusal is returned as a success. -/
theorem refusedCall_success :
    ¬ (refusedCall.out exampleSha1 exampleJsonCode exampleWorld.client).Reported := by
  have hret : (refusedCall.out exampleSha1 exampleJsonCode exampleWorld.client).ret = 0 := by
    decide +kernel
  have hlast : lastStatus (refusedCall.out exampleSha1 exampleJsonCode
      exampleWorld.client).made = some 500 := by
    decide +kernel
  rintro ⟨⟨-, hok⟩ | ⟨hpos, -⟩ | hneg, -⟩
  · rw [hlast] at hok
    exact absurd hok (by decide)
  · rw [hret] at hpos
    exact absurd hpos (lt_irrefl _)
  · rw [hret] at hneg
    exact absurd hneg (lt_irrefl _)

end EzpFirmware.Qcloud
