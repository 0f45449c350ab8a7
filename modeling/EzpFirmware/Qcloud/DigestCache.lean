import Mathlib.Data.Nat.Cast.Basic
import EzpFirmware.Lib.Memo
import EzpFirmware.Qcloud.Request

/-! # The digest and the server

The stored digest is a memory of what the server holds. A request keeps it right
if the server took the body whenever the request counts as done, and did not
whenever it counts as failed, unless no digest is stored.
-/
namespace EzpFirmware.Qcloud
open Lib UserNvram

/-- The body that the server holds of every type: the last it has taken, none after a deletion. -/
abbrev Server := RequestType → Option CStr

/-- What the server makes of the transfers of a call. -/
def serve (call : Call) (made : List Exchange) (s : Server) : Server :=
  match call.flag.request with
  | none => s
  | some t =>
    if made.any Exchange.taken then
      match call.method with
      | .put | .post => Function.update s t (some call.body)
      | .delete => Function.update s t none
      | .get => s
    else s

/-- The two sides. -/
structure World where
  client : Client
  server : Server

section
variable (sha1Csum : CStr → {sum : List UInt8 // sum.length = SHA1_SUM_LEN})
variable (jsonCode : Option CStr → Option CStr)

/-- What a call returns. -/
def Call.out (call : Call) (c : Client) : Outcome :=
  qidHttpcRequestEx sha1Csum jsonCode call.run call.flag call.method call.body call.resp c

/-- A call. -/
def World.step (w : World) (call : Call) : World where
  client := (call.out sha1Csum jsonCode w.client).client
  server := serve call (call.out sha1Csum jsonCode w.client).made w.server

/-- The call is answered from the digest. -/
def AnsweredFromDigest (w : World) (call : Call) : Prop :=
  (call.out sha1Csum jsonCode w.client).ret = HTTP_HASHED_RESP_OK ∧
    (call.out sha1Csum jsonCode w.client).made = []

/-- Every PUT or POST of a run that is answered from the digest has the body that the server
holds. -/
def NeverSkips : World → List Call → Prop
  | _, [] => True
  | w, call :: calls =>
    (∀ t, call.flag.request = some t → call.method = .put ∨ call.method = .post →
      AnsweredFromDigest sha1Csum jsonCode w call → w.server t = some call.body) ∧
    NeverSkips (w.step sha1Csum jsonCode call) calls

/-- The condition on a call. The server holds no other body with the same digest; and if the call
is sent, then the server takes the body, or has it, when the call counts as done, and takes no body
while a digest is stored when it does not. -/
def Call.Careful (call : Call) (w : World) : Prop :=
  ∀ t, call.flag.request = some t → call.method = .put ∨ call.method = .post →
    let c := expire call.run t w.client
    (∀ a, w.server t = some a → digest sha1Csum a = digest sha1Csum call.body → a = call.body) ∧
    (c.hash t ≠ digest sha1Csum call.body →
      (call.Done jsonCode c →
        (∃ x ∈ call.tries jsonCode c, x.taken = true) ∨ w.server t = some call.body) ∧
      (¬ call.Done jsonCode c →
        (∃ x ∈ call.tries jsonCode c, x.taken = true) → c.hash t = []))

end

section digest
variable {sha1Csum : CStr → {sum : List UInt8 // sum.length = SHA1_SUM_LEN}}

theorem hexDigit_mem : ∀ n < 16, hexDigit n ≠ 0 ∧ hexDigit n ≠ NL ∧ ¬ strips (hexDigit n) := by
  decide

variable (sha1Csum) in
theorem length_digest (body : CStr) :
    (digest sha1Csum body).length = SHA1_SUM_LEN * 2 := by
  simp [digest, utilConvertHexToChar, List.length_flatMap, (sha1Csum body).property]

theorem digest_ne_nil (body : CStr) : digest sha1Csum body ≠ [] := by
  intro h
  have hlen := length_digest sha1Csum body
  rw [h] at hlen
  exact absurd hlen (by decide)

theorem mem_digest {body : CStr} {b : UInt8} (h : b ∈ digest sha1Csum body) :
    b ≠ 0 ∧ b ≠ NL ∧ ¬ strips b := by
  rcases List.mem_flatMap.mp h with ⟨x, -, hx⟩
  have hbyte : x.toNat < 256 := x.toNat_lt
  rcases List.mem_pair.mp hx with rfl | rfl
  · exact hexDigit_mem _ (by omega)
  · exact hexDigit_mem _ (by omega)

/-- A digest is read as it was written. -/
theorem read_digest (body : CStr) :
    (utilSystemCmd (digest sha1Csum body) TMP_BUFF_LEN).val = digest sha1Csum body := by
  have hnl : NL ∉ digest sha1Csum body := fun h => (mem_digest h).2.1 rfl
  have hzero : (0 : UInt8) ∉ digest sha1Csum body := fun h => (mem_digest h).1 rfl
  have hline : (digest sha1Csum body).takeWhile (· ≠ NL) = digest sha1Csum body := by
    apply List.takeWhile_eq_self_iff.mpr
    intro b hb
    simpa using (mem_digest hb).2.1
  have hgets : fgets TMP_BUFF_LEN (digest sha1Csum body) = digest sha1Csum body := by
    rw [fgets, hline, if_neg hnl, List.append_nil, List.take_of_length_le]
    rw [length_digest]
    decide
  have hstrip : (digest sha1Csum body).rdropWhile strips = digest sha1Csum body := by
    rw [List.rdropWhile_eq_self_iff]
    exact fun hne => (mem_digest (List.getLast_mem hne)).2.2
  rw [utilSystemCmd, hgets, CStr.read_of_free hzero]
  change (CStr.read ((digest sha1Csum body).rdropWhile strips)).val = _
  rw [hstrip, CStr.read_of_free hzero]

theorem read_nothing : (utilSystemCmd [] TMP_BUFF_LEN).val = [] := by decide

end digest

section world
variable {sha1Csum : CStr → {sum : List UInt8 // sum.length = SHA1_SUM_LEN}}
variable {jsonCode : Option CStr → Option CStr}

/-- The digest file of a type as a memory of the server. -/
def memoOf (c : Client) (s : Server) (t : RequestType) : Memo CStr (List UInt8) :=
  ⟨if c.hash t = [] then none else some (c.hash t), s t⟩

/-- All digests are those of what the server holds. -/
def Synced (sha1Csum : CStr → {sum : List UInt8 // sum.length = SHA1_SUM_LEN}) (c : Client)
    (s : Server) : Prop :=
  ∀ t, Memo.Coherent (digest sha1Csum) (memoOf c s t)

theorem memoOf_congr {c c' : Client} {s s' : Server} {t : RequestType} (hc : c'.hash t = c.hash t)
    (hs : s' t = s t) : memoOf c' s' t = memoOf c s t := by
  rw [memoOf, memoOf, hc, hs]

theorem expire_hash (run : Course) (t : RequestType) (c : Client) :
    (expire run t c).hash = c.hash ∨ (expire run t c).hash = Function.update c.hash t [] := by
  unfold expire
  split
  · exact Or.inr rfl
  · exact Or.inl rfl

theorem Synced.expire {c : Client} {s : Server} (h : Synced sha1Csum c s) (run : Course)
    (t : RequestType) : Synced sha1Csum (expire run t c) s := by
  intro t'
  rcases expire_hash run t c with hhash | hhash
  · rw [memoOf_congr (congrFun hhash t') rfl]
    exact h t'
  · by_cases ht : t' = t
    · subst ht
      exact Memo.coherent_of_memory_none (by simp [memoOf, hhash])
    · have hsame : (Qcloud.expire run t c).hash t' = c.hash t' := by
        rw [hhash, Function.update_of_ne ht]
      rw [memoOf_congr hsame rfl]
      exact h t'

/-- The comparison of `qid_httpc_request_ex`. -/
def Hit (sha1Csum : CStr → {sum : List UInt8 // sum.length = SHA1_SUM_LEN}) (body : CStr)
    (t : RequestType) (c : Client) : Prop :=
  (digest sha1Csum body).take (SHA1_SUM_LEN * 2) =
    (qidSysGetHashString t c).val.take (SHA1_SUM_LEN * 2)

theorem hit_of_hash {body : CStr} {t : RequestType} {c : Client}
    (h : c.hash t = digest sha1Csum body) : Hit sha1Csum body t c := by
  rw [Hit, qidSysGetHashString, h, read_digest]

/-- A digest that is found is that of the body. -/
theorem hash_of_hit {body : CStr} {t : RequestType} {c : Client} {s : Server}
    (hw : Synced sha1Csum c s) (h : Hit sha1Csum body t c) : c.hash t = digest sha1Csum body := by
  rw [Hit, List.take_of_length_le (length_digest sha1Csum body).le, qidSysGetHashString] at h
  by_cases hnil : c.hash t = []
  · rw [hnil, read_nothing, List.take_nil] at h
    exact absurd h (digest_ne_nil body)
  · rcases hw t (c.hash t) (if_neg hnil) with ⟨a, -, ha⟩
    rw [← ha, read_digest, List.take_of_length_le (length_digest sha1Csum a).le] at h
    rw [← ha, h]

variable (sha1Csum jsonCode) in
/-- What a request that is sent leaves. -/
theorem doRequest_spec (call : Call) (c : Client) {t : RequestType}
    (hflag : call.flag.request = some t) (hm : call.method = .put ∨ call.method = .post) :
    (doRequest sha1Csum jsonCode call.run call.flag call.method call.body call.resp c).made =
      call.tries jsonCode c ∧
    (doRequest sha1Csum jsonCode call.run call.flag call.method call.body call.resp c).client.hash =
      if call.Done jsonCode c then
        Function.update c.hash t (digest sha1Csum call.body)
      else c.hash := by
  have hspec := retryLoop_spec jsonCode call c
  have hdo : doRequest sha1Csum jsonCode call.run call.flag call.method call.body call.resp c =
      let out := retryLoop jsonCode call.run call.flag HTTPC_RETRY_TIMES 0 NO_ERROR call.resp c
      if out.ret = NO_ERROR then
        { out with
          client := qidSysSetHashStringTtl t (call.run.finish + HASH_STRING_VALID_PERIOD)
            (qidSysSetHashString t (digest sha1Csum call.body) out.client) }
      else out := by
    rcases hm with hm | hm <;> simp only [doRequest, hflag, hm]
  rw [hdo]
  by_cases hret : (retryLoop jsonCode call.run call.flag HTTPC_RETRY_TIMES 0 NO_ERROR call.resp
      c).ret = NO_ERROR
  · simp only [hret, if_true, if_pos (hspec.ret.mp hret)]
    refine ⟨hspec.made, ?_⟩
    change Function.update (retryLoop jsonCode call.run call.flag HTTPC_RETRY_TIMES 0 NO_ERROR
      call.resp c).client.hash t _ = _
    rw [hspec.hash]
  · simp only [hret, if_false, if_neg fun h => hret (hspec.ret.mpr h)]
    exact ⟨hspec.made, hspec.hash⟩

variable (sha1Csum jsonCode) in
/-- And what one of another method leaves. -/
theorem doRequest_other (call : Call) (c : Client)
    (h : call.flag.request = none ∨ call.method = .get ∨ call.method = .delete) :
    (doRequest sha1Csum jsonCode call.run call.flag call.method call.body call.resp c).made =
      call.tries jsonCode c ∧
    (doRequest sha1Csum jsonCode call.run call.flag call.method call.body call.resp c).client.hash =
      c.hash := by
  have hspec := retryLoop_spec jsonCode call c
  have hdo : doRequest sha1Csum jsonCode call.run call.flag call.method call.body call.resp c =
      retryLoop jsonCode call.run call.flag HTTPC_RETRY_TIMES 0 NO_ERROR call.resp c := by
    rcases h with h | h | h
    · simp only [doRequest, h]
    · cases hflag : call.flag.request <;> simp only [doRequest, h, hflag]
    · cases hflag : call.flag.request <;> simp only [doRequest, h, hflag]
  rw [hdo]
  exact ⟨hspec.made, hspec.hash⟩

theorem first_mem_tries (call : Call) (c : Client) :
    call.run.exchange 0 ∈ call.tries jsonCode c := by
  unfold Call.tries
  split <;> simp

/-- What the server holds after the transfers of a body. -/
theorem serve_body {call : Call} {t : RequestType} (hflag : call.flag.request = some t)
    (hm : call.method = .put ∨ call.method = .post) (made : List Exchange) (s : Server) :
    serve call made s t = if made.any Exchange.taken then some call.body else s t := by
  by_cases h : made.any Exchange.taken = true
  · rcases hm with hm | hm <;> simp only [serve, hflag, hm, h, if_true, Function.update_self]
  · simp only [serve, hflag, if_neg h]

/-- Other types are not touched. -/
theorem serve_of_ne {call : Call} {t t' : RequestType} (hflag : call.flag.request = some t)
    (ht : t' ≠ t) (made : List Exchange) (s : Server) : serve call made s t' = s t' := by
  simp only [serve, hflag]
  split
  · cases call.method <;> simp only [Function.update_of_ne ht]
  · rfl

/-- A careful request that is sent keeps the digests. -/
theorem sent_synced {call : Call} {c : Client} {s : Server} (hs : Synced sha1Csum c s)
    {t : RequestType} (hflag : call.flag.request = some t)
    (hm : call.method = .put ∨ call.method = .post)
    (hdone : call.Done jsonCode c →
      (∃ x ∈ call.tries jsonCode c, x.taken = true) ∨ s t = some call.body)
    (hlost : ¬ call.Done jsonCode c →
      (∃ x ∈ call.tries jsonCode c, x.taken = true) → c.hash t = []) :
    Synced sha1Csum
      (doRequest sha1Csum jsonCode call.run call.flag call.method call.body call.resp c).client
      (serve call (call.tries jsonCode c) s) := by
  rcases doRequest_spec sha1Csum jsonCode call c hflag hm with
    ⟨-, hhash⟩
  intro t'
  by_cases ht : t' = t
  · subst ht
    have hevent : memoOf
        (doRequest sha1Csum jsonCode call.run call.flag call.method call.body call.resp c).client
        (serve call (call.tries jsonCode c) s) t' =
        Memo.step (digest sha1Csum) (memoOf c s t') (.put call.body
          ((call.tries jsonCode c).any Exchange.taken)
          (decide (call.Done jsonCode c))) := by
      rw [memoOf, hhash, serve_body hflag hm]
      by_cases hcall : call.Done jsonCode c
      · rw [decide_eq_true hcall, if_pos hcall]
        simp only [Function.update_self, digest_ne_nil, if_false, Memo.step, memoOf, if_true]
      · rw [decide_eq_false hcall, if_neg hcall]
        simp only [Memo.step, memoOf, Bool.false_eq_true, if_false]
    rw [hevent]
    apply (hs t').step
    constructor
    · intro hcall
      exact (hdone (of_decide_eq_true hcall)).imp_left List.any_eq_true.mpr
    · intro hcall htaken
      have hnil := hlost (of_decide_eq_false hcall) (List.any_eq_true.mp htaken)
      simp [memoOf, hnil]
  · rw [memoOf_congr (c := c) (s := s)]
    · exact hs t'
    · rw [hhash]
      split
      · rw [Function.update_of_ne ht]
      · rfl
    · exact serve_of_ne hflag ht _ _

/-- A request without a body keeps the digests. -/
theorem Synced.of_same {c c' : Client} {s s' : Server} (h : Synced sha1Csum c s)
    (hc : c'.hash = c.hash) (hs : s' = s) : Synced sha1Csum c' s' := by
  intro t
  rw [memoOf_congr (congrFun hc t) (congrFun hs t)]
  exact h t

variable (jsonCode) in
/-- A call with the stored digest is not sent. -/
theorem out_hit {call : Call} {c : Client} {t : RequestType} (hflag : call.flag.request = some t)
    (hm : call.method = .put ∨ call.method = .post)
    (h : Hit sha1Csum call.body t (expire call.run t c)) :
    (call.out sha1Csum jsonCode c).made = [] ∧
      (call.out sha1Csum jsonCode c).client.hash = (expire call.run t c).hash := by
  unfold Hit at h
  rcases hm with hm | hm <;>
  · simp only [Call.out, qidHttpcRequestEx, hflag, hm, if_pos h]
    cases (expire call.run t c).httpResp <;> exact ⟨rfl, rfl⟩

variable (jsonCode) in
/-- Any other call with a body is sent. -/
theorem out_miss {call : Call} {c : Client} {t : RequestType} (hflag : call.flag.request = some t)
    (hm : call.method = .put ∨ call.method = .post)
    (h : ¬ Hit sha1Csum call.body t (expire call.run t c)) :
    call.out sha1Csum jsonCode c = doRequest sha1Csum jsonCode call.run call.flag call.method
      call.body call.resp (expire call.run t c) := by
  unfold Hit at h
  rcases hm with hm | hm <;> simp only [Call.out, qidHttpcRequestEx, hflag, hm, if_neg h]

/-- One careful call with a body keeps the digests. -/
theorem step_body {w : World} {call : Call} (h : Synced sha1Csum w.client w.server)
    (hc : call.Careful sha1Csum jsonCode w) {t : RequestType}
    (hflag : call.flag.request = some t) (hm : call.method = .put ∨ call.method = .post) :
    Synced sha1Csum (w.step sha1Csum jsonCode call).client
      (w.step sha1Csum jsonCode call).server := by
  have hexp := h.expire call.run t
  by_cases hhit : Hit sha1Csum call.body t (expire call.run t w.client)
  · rcases out_hit jsonCode hflag hm hhit with ⟨hmade, hhash⟩
    apply hexp.of_same
    · exact hhash
    · simp [World.step, hmade, serve, hflag]
  · have hmiss := out_miss jsonCode hflag hm hhit
    have hne : (expire call.run t w.client).hash t ≠ digest sha1Csum call.body :=
      fun he => hhit (hit_of_hash he)
    rcases (hc t hflag hm).2 hne with ⟨hdone, hlost⟩
    have hsent := sent_synced hexp hflag hm hdone hlost
    have hmade := (doRequest_spec sha1Csum jsonCode call
      (expire call.run t w.client) hflag hm).1
    simpa only [World.step, hmiss, hmade] using hsent

/-- One careful call keeps the digests. -/
theorem step_synced {w : World} {call : Call} (h : Synced sha1Csum w.client w.server)
    (hc : call.Careful sha1Csum jsonCode w) :
    Synced sha1Csum (w.step sha1Csum jsonCode call).client
      (w.step sha1Csum jsonCode call).server := by
  cases hflag : call.flag.request with
  | none =>
    have hout : call.out sha1Csum jsonCode w.client =
        doRequest sha1Csum jsonCode call.run call.flag call.method call.body call.resp w.client := by
      simp only [Call.out, qidHttpcRequestEx, hflag]
    apply h.of_same
    · simpa only [World.step, hout] using
        (doRequest_other sha1Csum jsonCode call w.client (Or.inl hflag)).2
    · simp only [World.step, serve, hflag]
  | some t =>
    have hexp := h.expire call.run t
    cases hm : call.method with
    | put => exact step_body h hc hflag (Or.inl hm)
    | post => exact step_body h hc hflag (Or.inr hm)
    | get =>
      have hout : call.out sha1Csum jsonCode w.client = doRequest sha1Csum jsonCode call.run
          call.flag call.method call.body call.resp (expire call.run t w.client) := by
        simp only [Call.out, qidHttpcRequestEx, hflag, hm]
      apply hexp.of_same
      · simpa only [World.step, hout] using
          (doRequest_other sha1Csum jsonCode call _ (Or.inr (Or.inl hm))).2
      · simp [World.step, serve, hflag, hm]
    | delete =>
      have hout : call.out sha1Csum jsonCode w.client = doRequest sha1Csum jsonCode call.run
          call.flag call.method call.body call.resp (qidSysSetHashStringTtl t 0
            (qidSysSetHashString t [] (expire call.run t w.client))) := by
        simp only [Call.out, qidHttpcRequestEx, hflag, hm]
      have hhash : (w.step sha1Csum jsonCode call).client.hash =
          Function.update (expire call.run t w.client).hash t [] := by
        simp only [World.step, hout]
        exact (doRequest_other sha1Csum jsonCode call _ (Or.inr (Or.inr hm))).2
      intro t'
      by_cases ht : t' = t
      · subst ht
        exact Memo.coherent_of_memory_none (by simp [memoOf, hhash])
      · rw [memoOf_congr (c := expire call.run t w.client) (s := w.server)]
        · exact hexp t'
        · rw [hhash, Function.update_of_ne ht]
        · exact serve_of_ne hflag ht _ _

/-- A careful call that is answered from the digest has the body that the server holds. -/
theorem answered_held {w : World} {call : Call} (h : Synced sha1Csum w.client w.server)
    (hc : call.Careful sha1Csum jsonCode w) (ha : AnsweredFromDigest sha1Csum jsonCode w call)
    {t : RequestType} (hflag : call.flag.request = some t)
    (hm : call.method = .put ∨ call.method = .post) : w.server t = some call.body := by
  have hexp := h.expire call.run t
  by_cases hhit : Hit sha1Csum call.body t (expire call.run t w.client)
  · have hhash := hash_of_hit hexp hhit
    apply (hexp t).hit
    · simp [memoOf, hhash, digest_ne_nil]
    · exact (hc t hflag hm).1
  · have hmade := ha.2
    rw [out_miss jsonCode hflag hm hhit, (doRequest_spec sha1Csum jsonCode call _ hflag hm).1] at hmade
    exact absurd hmade (List.ne_nil_of_mem (first_mem_tries call _))

/-- A run of careful calls. -/
def CarefulRun (sha1Csum : CStr → {sum : List UInt8 // sum.length = SHA1_SUM_LEN})
    (jsonCode : Option CStr → Option CStr) : World → List Call → Prop
  | _, [] => True
  | w, call :: calls => call.Careful sha1Csum jsonCode w ∧
    CarefulRun sha1Csum jsonCode (w.step sha1Csum jsonCode call) calls

theorem neverSkips_of_synced {w : World} {calls : List Call}
    (hw : Synced sha1Csum w.client w.server) (h : CarefulRun sha1Csum jsonCode w calls) :
    NeverSkips sha1Csum jsonCode w calls := by
  induction calls generalizing w with
  | nil => trivial
  | cons call calls ih =>
    exact ⟨fun t hflag hm ha => answered_held hw h.1 ha hflag hm, ih (step_synced hw h.1) h.2⟩

/-- Without digests at the start, a run of careful calls never skips a body that the server does
not hold. -/
theorem neverSkips_of_careful {w : World} {calls : List Call} (hw : ∀ t, w.client.hash t = [])
    (h : CarefulRun sha1Csum jsonCode w calls) : NeverSkips sha1Csum jsonCode w calls :=
  neverSkips_of_synced (fun t => Memo.coherent_of_memory_none (by simp [memoOf, hw t])) h

end world

/-- SHA-1 on the bodies `a` and `b`. -/
def exampleSha1 (body : CStr) : {sum : List UInt8 // sum.length = SHA1_SUM_LEN} :=
  if body = .ofString "a" then
    ⟨[0x86, 0xf7, 0xe4, 0x37, 0xfa, 0xa5, 0xa7, 0xfc, 0xe1, 0x5d, 0x1d, 0xdc, 0xb9, 0xea, 0xea,
      0xea, 0x37, 0x76, 0x67, 0xb8], rfl⟩
  else if body = .ofString "b" then
    ⟨[0xe9, 0xd7, 0x1f, 0x5e, 0xe7, 0xc9, 0x2d, 0x6d, 0xc9, 0xe9, 0x2f, 0xfd, 0xad, 0x17, 0xb8,
      0xbd, 0x49, 0x41, 0x8f, 0x98], rfl⟩
  else ⟨List.replicate SHA1_SUM_LEN 0, List.length_replicate⟩

/-- The code of an answer that refuses. -/
def exampleJsonCode (resp : Option CStr) : Option CStr :=
  if resp = some (.ofString "\x7b\"code\": 1\x7d") then some (.ofString "1") else none

/-- A call of `PUT` whose transfers all end in the same way. -/
def exampleCall (body : String) (x : Exchange) : Call where
  run := ⟨1000, 1001, fun _ => x, 0, none⟩
  flag := ⟨true, false, some .ddns⟩
  method := .put
  body := .ofString body
  resp := false

/-- No digest, and nothing on the server. -/
def exampleWorld : World := ⟨⟨fun _ => [], fun _ => 0, none⟩, fun _ => none⟩

/-- A body that was taken is sent once, and is there when it is not sent again. -/
theorem neverSkips_twice : NeverSkips exampleSha1 exampleJsonCode exampleWorld
    [exampleCall "a" (.ok .empty), exampleCall "a" (.ok .empty)] := by
  have hserver : (exampleWorld.step exampleSha1 exampleJsonCode
      (exampleCall "a" (.ok .empty))).server .ddns = some (.ofString "a") := by decide +kernel
  have hhash : (expire (exampleCall "a" (.ok .empty)).run .ddns (exampleWorld.step exampleSha1
      exampleJsonCode (exampleCall "a" (.ok .empty))).client).hash .ddns =
      digest exampleSha1 (.ofString "a") := by decide +kernel
  apply neverSkips_of_careful fun _ => rfl
  refine ⟨fun t ht _ => ?_, fun t ht _ => ?_, trivial⟩
  · obtain rfl : RequestType.ddns = t := Option.some.inj ht
    refine ⟨fun a ha => (nomatch ha), fun _ => ⟨fun _ => ?_, fun hnot => ?_⟩⟩
    · exact .inl ⟨_, first_mem_tries _ _, rfl⟩
    · exact absurd (.inr ⟨_, first_mem_tries _ _, rfl⟩) hnot
  · obtain rfl : RequestType.ddns = t := Option.some.inj ht
    refine ⟨fun a ha _ => ?_, fun hne => absurd hhash hne⟩
    rw [hserver] at ha
    exact (Option.some.inj ha).symm

/-- An update that the server refuses counts as done, and is not sent again. -/
theorem neverSkips_fails : ¬ ∀ (sha1Csum : CStr → {sum : List UInt8 // sum.length = SHA1_SUM_LEN})
    (jsonCode : Option CStr → Option CStr) (w : World) (calls : List Call),
    (∀ t, w.client.hash t = []) → NeverSkips sha1Csum jsonCode w calls := by
  intro h
  have hrun := h exampleSha1 exampleJsonCode exampleWorld
    [exampleCall "a" (.ok .empty),
      exampleCall "b" (.error ⟨500, by decide⟩ false (.ofString "\x7b\"code\": 1\x7d")),
      exampleCall "b" (.ok .empty)] fun _ => rfl
  have hserver := hrun.2.2.1 .ddns rfl (Or.inl rfl)
    ⟨by decide +kernel, List.isEmpty_iff.mp (by decide +kernel)⟩
  revert hserver
  decide +kernel

end EzpFirmware.Qcloud
