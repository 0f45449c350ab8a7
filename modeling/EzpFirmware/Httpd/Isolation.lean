import EzpFirmware.Httpd.Access

/-! # Requests one after another

The variables of a request are in a table that belongs to the process. A body
is only taken apart when it is posted and not empty, and a table that is there
stays in place; so what a handler is given comes from its own request alone as
long as every request before it ended with an empty table.
-/
namespace EzpFirmware.Httpd
open Lib UserNvram

section
variable (L : Libc) (x : Context) (req : Request)

/-- The text of a request that is taken apart for its handler. -/
def ownText (r : Routed) : Option CStr :=
  if r.handler.output = some .doApplyCgi ∧ req.method ≠ POST then
    (CStr.cut QUESTION r.file).map Prod.snd
  else if r.handler.input = some .doApplyPost then (submitted req).map CStr.read
  else none

/-- What its text alone gives to a handler. -/
def ownForm (r : Routed) : Form :=
  match ownText req r with
  | none => fun _ => none
  | some text => formOf L text

/-- The decoder stays inside the text. -/
def Readable (r : Routed) : Prop := ∀ text, ownText req r = some text → Whole L text

/-- A handler for which a body was taken apart ends at an exit that empties the table. -/
def Emptied (r : Routed) : Prop :=
  r.handler.input = some .doApplyPost → submitted req ≠ none →
    ∀ output, r.handler.output = some output → output ≠ .doApplyCgi →
      flushes x.running (ownForm L req r) output = true

end

/-- A request, and the system at its time. -/
abbrev Visit := Context × Request

section
variable (L : Libc)

/-- In a run, every handler is given the variables of its own request. -/
def Apart : List Visit → Server → Prop
  | [], _ => True
  | (x, req) :: rest, st =>
    (∀ s r, arrive L x req st = .ok (s, some r) →
      getCgi L (variablesFor L x req r s.cgi) = ownForm L req r) ∧
    ∀ t saved, handleRequest L x req st = .ok (t, saved) → Apart rest t

/-- In a run, every text is readable, and every handler but the last empties the table. -/
def AllTidy : List Visit → Server → Prop
  | [], _ => True
  | (x, req) :: rest, st =>
    (∀ s r, arrive L x req st = .ok (s, some r) →
      Readable L req r ∧ (rest ≠ [] → Emptied L x req r)) ∧
    ∀ t saved, handleRequest L x req st = .ok (t, saved) → AllTidy rest t

end

/-- Between requests: there is no table, or no handler runs any more. -/
def Server.Clean (st : Server) : Prop := st.cgi.htab = none ∨ st.rebootAction = 2

theorem boot_clean (nvram : Variables) : (Server.boot nvram).Clean := .inl rfl

/-! ## The rows that are reached -/

section
variable {L : Libc} {x : Context} {req : Request} {st : Server}

theorem loginHandler_mem {handler : MimeHandler} (h : handler ∈ mimeHandlers) :
    loginHandler handler ∈ mimeHandlers := by
  unfold loginHandler
  split_ifs
  · exact h
  · rw [login_row]
    exact findHandler_mem login_row

/-- The row that is reached, and the file of the login page for somebody `apply.cgi` does not know. -/
theorem checked_spec {authState : ℤ} {a : CStr} {handler : MimeHandler} {file : CStr} {r : Routed}
    (h : handler ∈ mimeHandlers) (hr : checked x st.nvram authState a handler file = .ok r) :
    r.handler ∈ mimeHandlers ∧
      (r.handler.output = some .doApplyCgi → r.authState = 0 ∨ r.file = LOGIN) := by
  unfold checked at hr
  split_ifs at hr with hauth
  · cases hcode : authenticate x st.nvram a with
    | error e =>
      rw [hcode] at hr
      cases hr
    | ok code =>
      rw [hcode] at hr
      dsimp only at hr
      split_ifs at hr with hzero
      · cases hr
        exact ⟨h, fun _ => .inl hzero⟩
      · cases hr
        exact ⟨loginHandler_mem h, fun _ => .inr rfl⟩
  · cases hr
    refine ⟨h, fun hout => absurd ?_ hauth⟩
    rw [apply_row h (apply_output h hout)]

theorem route_spec {r : Routed} (h : route L x req st = .ok (some r)) :
    r.handler ∈ mimeHandlers ∧
      (r.handler.output = some .doApplyCgi → r.authState = 0 ∨ r.file = LOGIN) := by
  unfold route at h
  cases hname : fileOf req.path with
  | none => simp [hname] at h
  | some name =>
    cases ha : authorizationOf L x req with
    | error e => simp [hname, ha] at h
    | ok a =>
      rw [hname, ha] at h
      dsimp only at h
      cases hhandler : findHandler (servedFile x st.nvram name) with
      | none => simp [hhandler] at h
      | some handler =>
        rw [hhandler] at h
        dsimp only at h
        cases hr : checked x st.nvram st.authState a handler (servedFile x st.nvram name) with
        | error e => simp [hr, Except.map] at h
        | ok r' =>
          rw [hr] at h
          cases h
          exact checked_spec (findHandler_mem hhandler) hr

/-- Where a request leaves the server before the answer. -/
theorem arrive_cases {s : Server} {o : Option Routed} (h : arrive L x req st = .ok (s, o)) :
    o = none ∧ s = st ∨
      ∃ r, route L x req st = .ok (some r) ∧ s = entered L x req r st ∧
        (st.rebootAction = 2 ∧ o = none ∨ st.rebootAction ≠ 2 ∧ o = some r) := by
  unfold arrive at h
  by_cases hrefuse : st.refuseRequest = true
  · rw [if_pos hrefuse] at h
    cases h
    exact .inl ⟨rfl, rfl⟩
  · rw [if_neg hrefuse] at h
    cases hr : route L x req st with
    | error e => simp [hr] at h
    | ok found =>
      rw [hr] at h
      cases found with
      | none =>
        cases h
        exact .inl ⟨rfl, rfl⟩
      | some r =>
        cases h
        refine .inr ⟨r, rfl, rfl, ?_⟩
        by_cases hreboot : st.rebootAction = 2
        · exact .inl ⟨hreboot, if_pos hreboot⟩
        · exact .inr ⟨hreboot, if_neg hreboot⟩

/-- The posted text and what is behind it, in the buffer. -/
theorem doApplyPost_form (hnone : st.cgi.htab = none)
    (hwhole : ∀ data, submitted req = some data → Whole L (CStr.read data)) :
    getCgi L (doApplyPost L x req st.cgi) =
      match submitted req with
      | none => fun _ => none
      | some data => formOf L (CStr.read data) := by
  unfold doApplyPost
  dsimp only
  cases hdata : submitted req with
  | none =>
    dsimp only
    rw [hnone]
    rfl
  | some data =>
    obtain ⟨rest, hrest⟩ :=
      CStr.exists_stored_append data ((poke st.cgi.post 0 [0]).drop (data ++ [0]).length)
    have hmem : poke (poke st.cgi.post 0 [0]) 0 (data ++ [0]) =
        [] ++ (CStr.read data).stored ++ rest := by
      rw [List.nil_append, ← hrest]
      simp [poke]
    let c : Cgi := { st.cgi with post := poke (poke st.cgi.post 0 [0]) 0 (data ++ [0]) }
    have hc : c.mem .post = [] ++ (CStr.read data).stored ++ rest := hmem
    exact form_alone (c := c) hnone hc (hwhole data hdata) x.junk

/-- Where nothing is posted there is no table. -/
theorem doApplyPost_none (hnone : st.cgi.htab = none) (hdata : submitted req = none) :
    (doApplyPost L x req st.cgi).htab = none := by
  unfold doApplyPost
  rw [hdata]
  exact hnone

/-- The variables of a query. -/
theorem queryCgi_form (hpost : req.method ≠ POST) {file : CStr} {c : Cgi} (hnone : c.htab = none)
    (hwhole : ∀ text, (CStr.cut QUESTION file).map Prod.snd = some text → Whole L text) :
    getCgi L (queryCgi L x req file c) =
      match (CStr.cut QUESTION file).map Prod.snd with
      | none => fun _ => none
      | some text => formOf L text := by
  rw [queryCgi, if_neg hpost]
  cases hcut : CStr.cut QUESTION file with
  | none => rfl
  | some a =>
    rw [hcut] at hwhole
    exact form_alone (c := { c with line := a.1.stored ++ a.2.stored ++ req.rest })
      (b := .line) hnone rfl (hwhole a.2 rfl) x.junk

theorem submitted_none (hpost : req.method ≠ POST) : submitted req = none := by
  rw [submitted, if_neg fun h => hpost h.1]

/-- The test at the head of `do_apply_cgi` refuses nobody. -/
theorem not_refused {r : Routed} (h : r.authState = 0 ∨ r.file = LOGIN) (c : Cgi) :
    refused r c = false := by
  obtain h | h := h <;> simp [refused, h]

theorem entered_post {r : Routed} (hin : r.handler.input = some .doApplyPost) :
    (entered L x req r st).cgi = doApplyPost L x req st.cgi := if_pos hin

/-- The variables that were posted. -/
theorem entered_form {r : Routed} (hin : r.handler.input = some .doApplyPost)
    (htext : ownText req r = (submitted req).map CStr.read) (hnone : st.cgi.htab = none)
    (hread : Readable L req r) : getCgi L (entered L x req r st).cgi = ownForm L req r := by
  rw [entered_post hin, doApplyPost_form hnone, ownForm, htext]
  · cases submitted req <;> rfl
  · intro data hdata
    apply hread
    rw [htext, hdata]
    rfl

/-- Without a table, a handler is given the variables of its own request. -/
theorem variablesFor_form {r : Routed} (hr : route L x req st = .ok (some r))
    (hnone : st.cgi.htab = none) (hread : Readable L req r) :
    getCgi L (variablesFor L x req r (entered L x req r st).cgi) = ownForm L req r := by
  obtain ⟨hmem, hlogin⟩ := route_spec hr
  by_cases hout : r.handler.output = some .doApplyCgi
  · have hin : r.handler.input = some .doApplyPost := by
      rw [apply_row hmem (apply_output hmem hout)]
    rw [variablesFor, if_pos ⟨hout, not_refused (hlogin hout) _⟩]
    by_cases hpost : req.method = POST
    · rw [queryCgi, if_pos hpost]
      apply entered_form hin _ hnone hread
      rw [ownText, if_neg fun h => h.2 hpost, if_pos hin]
    · have htext : ownText req r = (CStr.cut QUESTION r.file).map Prod.snd := by
        rw [ownText, if_pos ⟨hout, hpost⟩]
      rw [entered_post hin, ownForm, htext]
      apply queryCgi_form hpost (doApplyPost_none hnone (submitted_none hpost))
      intro text h
      exact hread text (by rw [htext, h])
  · rw [variablesFor, if_neg fun h => hout h.1]
    by_cases hin : r.handler.input = some .doApplyPost
    · apply entered_form hin _ hnone hread
      rw [ownText, if_neg fun h => hout h.1, if_pos hin]
    · have hentered : (entered L x req r st).cgi = st.cgi := if_neg hin
      have htext : ownText req r = none := by
        rw [ownText, if_neg fun h => hout h.1, if_neg hin]
      rw [hentered, ownForm, htext]
      funext name
      rw [getCgi, hnone]

/-! ## One request -/

/-- Whether a table is left behind an answer. -/
theorem answer_clean {r : Routed} (hr : route L x req st = .ok (some r))
    (hnone : st.cgi.htab = none) (hread : Readable L req r) (hempty : Emptied L x req r)
    {t : Server} {saved : Bool}
    (h : answer L x req r (entered L x req r st) = .ok (t, saved)) : t.cgi.htab = none := by
  obtain ⟨hmem, hlogin⟩ := route_spec hr
  have hview := variablesFor_form hr hnone hread
  unfold answer at h
  dsimp only at h
  split at h
  case h_1 hout => exact absurd hout (output_row hmem)
  case h_2 hout =>
    rw [if_neg (by simp [not_refused (hlogin hout)])] at h
    split at h
    · cases h
    · cases h
      rfl
  case h_3 output happly hout =>
    cases h
    have hvars : variablesFor L x req r (entered L x req r st).cgi = (entered L x req r st).cgi :=
      if_neg fun h => happly (Option.some.inj (hout.symm.trans h.1))
    rw [hview]
    rw [hvars]
    dsimp only
    by_cases hflush : flushes x.running (ownForm L req r) output = true
    · rw [if_pos hflush]
    · rw [if_neg hflush]
      by_cases hin : r.handler.input = some .doApplyPost
      · have hdata : submitted req = none := by
          by_contra hdata
          exact hflush (hempty hin hdata output hout happly)
        rw [entered_post hin]
        exact doApplyPost_none hnone hdata
      · exact (congrArg Cgi.htab (if_neg hin)).trans hnone

/-- A request that is served tidily leaves the server clean. -/
theorem handleRequest_clean (hclean : st.Clean)
    (htidy : ∀ s r, arrive L x req st = .ok (s, some r) → Readable L req r ∧ Emptied L x req r)
    {t : Server} {saved : Bool} (h : handleRequest L x req st = .ok (t, saved)) : t.Clean := by
  unfold handleRequest at h
  cases harrive : arrive L x req st with
  | error e => simp [harrive] at h
  | ok a =>
    obtain ⟨s, o⟩ := a
    rw [harrive] at h
    obtain ⟨rfl, rfl⟩ | ⟨r, hroute, rfl, ⟨hreboot, rfl⟩ | ⟨hreboot, rfl⟩⟩ := arrive_cases harrive
    · cases h
      exact hclean
    · cases h
      exact .inr hreboot
    · obtain ⟨hread, hempty⟩ := htidy _ r harrive
      exact .inl (answer_clean hroute (hclean.resolve_right hreboot) hread hempty h)

/-- To a clean server, a handler is given the variables of its own request. -/
theorem arrive_form (hclean : st.Clean) {s : Server} {r : Routed}
    (h : arrive L x req st = .ok (s, some r)) (hread : Readable L req r) :
    getCgi L (variablesFor L x req r s.cgi) = ownForm L req r := by
  obtain ⟨hnone, -⟩ | ⟨r', hroute, hs, ⟨-, hnone⟩ | ⟨hreboot, hsome⟩⟩ := arrive_cases h
  · cases hnone
  · cases hnone
  · cases hsome
    rw [hs]
    exact variablesFor_form hroute (hclean.resolve_right hreboot) hread

end

/-! ## A whole run -/

section
variable {L : Libc}

theorem allTidy_apart {visits : List Visit} {st : Server} (hclean : st.Clean)
    (h : AllTidy L visits st) : Apart L visits st := by
  induction visits generalizing st with
  | nil => trivial
  | cons visit rest ih =>
    obtain ⟨x, req⟩ := visit
    refine ⟨fun s r harrive => arrive_form hclean harrive (h.1 s r harrive).1, ?_⟩
    intro t saved hstep
    cases rest with
    | nil => trivial
    | cons next rest =>
      apply ih _ (h.2 t saved hstep)
      apply handleRequest_clean hclean _ hstep
      intro s r harrive
      exact ⟨(h.1 s r harrive).1, (h.1 s r harrive).2 (List.cons_ne_nil _ _)⟩

/-- From the start of the server on, tidy requests do not see each other's variables. -/
theorem requests_apart (nvram : Variables) (visits : List Visit)
    (h : AllTidy L visits (Server.boot nvram)) : Apart L visits (Server.boot nvram) :=
  allTidy_apart (boot_clean nvram) h

end

/-! ## Two visits -/

/-- The cookie of somebody who knows the stored name and password. -/
def COOKIE : Option String := some "auth=YWRtaW46cHc=\n"

/-- A form, and after it an empty one. -/
def twoVisits (path body : String) : List Visit :=
  [(plain, posted path COOKIE body), (plain, posted "/disconnect.cgi" COOKIE "")]

/-- A body is readable wherever it goes. -/
theorem posted_readable {L : Libc} {req : Request} {r : Routed} (hpost : req.method = POST)
    (hwhole : ∀ data, submitted req = some data → Whole L (CStr.read data)) :
    Readable L req r := by
  intro text htext
  rw [ownText, if_neg fun h => h.2 hpost] at htext
  split_ifs at htext
  obtain ⟨data, hdata, rfl⟩ := Option.map_eq_some_iff.mp htext
  exact hwhole data hdata

/-- Starting the downloads, and a form with nothing in it. -/
theorem requests_apart_bt :
    AllTidy libc (twoVisits "/connect.cgi" "type=bt&num=0") (Server.boot stored) ∧
      Apart libc (twoVisits "/connect.cgi" "type=bt&num=0") (Server.boot stored) := by
  have hrow : ∀ s r, arrive libc plain (posted "/connect.cgi" COOKIE "type=bt&num=0")
      (Server.boot stored) = .ok (s, some r) →
        r.handler = formRow "connect.cgi*" .doConnectCgi := by
    intro s r h
    have hr : (arrive libc plain (posted "/connect.cgi" COOKIE "type=bt&num=0")
        (Server.boot stored)).toOption.bind (fun a => a.2.map Routed.handler) =
        some (formRow "connect.cgi*" .doConnectCgi) := by decide +kernel
    rw [h] at hr
    exact Option.some.inj hr
  have htidy : AllTidy libc (twoVisits "/connect.cgi" "type=bt&num=0") (Server.boot stored) := by
    refine ⟨fun s r h => ⟨posted_readable rfl ?_, fun _ hin _ output hout _ => ?_⟩, ?_⟩
    · intro data hdata
      cases hdata
      unfold Whole
      decide +kernel
    · rw [hrow s r h] at hout
      cases hout
      have htext : ownText (posted "/connect.cgi" COOKIE "type=bt&num=0") r =
          some (.ofString "type=bt&num=0") := by
        rw [ownText, hrow s r h, if_neg (by decide), if_pos (by decide)]
        decide +kernel
      rw [ownForm, htext]
      decide +kernel
    · intro t saved _
      refine ⟨fun s r _ => ⟨posted_readable rfl ?_, fun h => absurd rfl h⟩, fun _ _ _ => trivial⟩
      intro data hdata
      cases hdata
  exact ⟨htidy, requests_apart stored _ htidy⟩

/-- Connecting over USB leaves its number to the next handler. -/
theorem connect_leaks :
    ∃ s saved t r,
      handleRequest libc plain (posted "/connect.cgi" COOKIE "type=usb&num=7")
        (Server.boot stored) = .ok (s, saved) ∧
      arrive libc plain (posted "/disconnect.cgi" COOKIE "") s = .ok (t, some r) ∧
      r.handler = formRow "disconnect.cgi*" .doDisconnectCgi ∧
      getCgi libc (variablesFor libc plain (posted "/disconnect.cgi" COOKIE "") r t.cgi)
        (.ofString "num") = some (.ofString "7") ∧
      ownForm libc (posted "/disconnect.cgi" COOKIE "") r (.ofString "num") = none := by
  have hrun : (handleRequest libc plain (posted "/connect.cgi" COOKIE "type=usb&num=7")
        (Server.boot stored)).toOption.bind (fun a =>
      (arrive libc plain (posted "/disconnect.cgi" COOKIE "") a.1).toOption.bind fun b =>
        b.2.map fun r => (r.handler,
          getCgi libc (variablesFor libc plain (posted "/disconnect.cgi" COOKIE "") r b.1.cgi)
            (.ofString "num"),
          ownForm libc (posted "/disconnect.cgi" COOKIE "") r (.ofString "num"))) =
      some (formRow "disconnect.cgi*" .doDisconnectCgi, some (.ofString "7"), none) := by
    decide +kernel
  obtain ⟨⟨s, saved⟩, hs, hrest⟩ := Option.bind_eq_some_iff.mp hrun
  obtain ⟨⟨t, o⟩, ht, hlast⟩ := Option.bind_eq_some_iff.mp hrest
  obtain ⟨r, rfl, hvalues⟩ := Option.map_eq_some_iff.mp hlast
  simp only [Prod.mk.injEq] at hvalues
  exact ⟨s, saved, t, r, of_toOption hs, of_toOption ht, hvalues⟩

end EzpFirmware.Httpd
