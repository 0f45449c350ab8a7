import EzpFirmware.Httpd.Request

/-! # Requests that are not authenticated

Somebody who is not known is shown the login page, except at `apply.cgi`, whose
handler is kept for the sake of the language and of logging in. That handler
looks for the name of the file that was asked for, and has only been told the
name of the login page; so it checks the form, which may set a connection, and
saves it.
-/
namespace EzpFirmware.Httpd
open Lib UserNvram

section
variable (L : Libc) (x : Context) (req : Request) (st : Server)

/-- The cookie of the request is not accepted. -/
def NotAccepted : Prop :=
  ∀ a, authorizationOf L x req = .ok a → authenticate x st.nvram a ≠ .ok 0

/-- A page that is shown to anybody. -/
def Public (file : CStr) : Prop :=
  file = LOGIN ∨ ∃ handler, findHandler file = some handler ∧ handler.auth = false

/-- The scripts of the pages that are shown to anybody set no variable. -/
def PublicPagesRead : Prop :=
  ∀ file, Public file → ∀ form, Confined (fun _ => False) (x.page file form)

/-- No variable but the language differs. -/
def SameButLang (M N : Variables) : Prop := ∀ m, m ≠ LANG → N m = M m

/-- The request is served, does not reach `config_save`, and changes no variable but the
language. -/
def ChangesNothing : Prop :=
  ∃ t, handleRequest L x req st = .ok (t, false) ∧ SameButLang st.nvram t.nvram

/-- `config_validate` comes to its end and does not accept the form. -/
def Refuses (form : Form) : Prop :=
  (onMap (configValidate x.unspecified x.legalStatic form true x.table) st.nvram).1 = .ok false

/-- If the form has the check of the wizard run, the connection that this gets to is stored
already. -/
def WizardIdle (form : Form) : Prop :=
  AsksWizard form x.table →
    ∀ t, (onMap (wizardWan x.unspecified x.legalStatic form) st.nvram).1 = some t →
      ∀ a ∈ WanType.settings t, st.nvram a.1 = some a.2

/-- The form asks neither to save what `config_validate` accepts, or a connection of the wizard, nor
for a page, nor for a language that it does not name. -/
def Withheld (form : Form) : Prop :=
  let action := websGetVar form "action"
  (action = .ofString "Apply" → Refuses x st form ∧ WizardIdle x st form) ∧
    action ≠ .ofString "Gozila" ∧
    (action = LANG → form LANG ≠ none ∧ ∃ v ∈ x.table, v.name = LANG)

/-- The cookie, as `parse_cookie_info` has decoded it, gives a value that fits. -/
def AuthFits : Prop :=
  ∀ cookie, req.cookie = some cookie → (CStr.read cookie).len ≠ 0 →
    CookieFits (CStr.read (unescape L cookie.length x.junk cookie)) (.ofString "auth")

/-- The cookie is read and checked inside the buffers, and what is posted to `apply.cgi` is
withheld. -/
def Contained : Prop :=
  st.refuseRequest = true ∨
    ∀ name, fileOf req.path = some name →
      AuthFits L x req ∧
        ∀ handler, findHandler (servedFile x st.nvram name) = some handler →
          (handler.auth = true → ∀ a, authorizationOf L x req = .ok a → Decodes a) ∧
            (handler.pattern = APPLY → req.method = POST → st.rebootAction ≠ 2 →
              Withheld x st (getCgi L (doApplyPost L x req st.cgi)))

end

/-! ## The rows of the table -/

/-- What the rows of the table are like. -/
theorem rows : (∀ handler ∈ mimeHandlers,
      (handler.pattern = APPLY →
        handler = ⟨APPLY, some .doApplyPost, some .doApplyCgi, true⟩) ∧
      (handler.output = some .doApplyCgi → handler.pattern = APPLY) ∧
      (handler.auth = false → handler.input ≠ some .doUpgradePost ∧
        (handler.output = some .doEj ∨ handler.output = some .doFile ∨
          handler.output = some .doSiteSurveyCgi)) ∧ handler.output ≠ none) ∧
    findHandler LOGIN = some ⟨.ofString "**.asp", none, some .doEj, true⟩ := by
  decide +kernel

theorem apply_row {handler : MimeHandler} (h : handler ∈ mimeHandlers)
    (ha : handler.pattern = APPLY) :
    handler = ⟨APPLY, some .doApplyPost, some .doApplyCgi, true⟩ := (rows.1 handler h).1 ha

theorem apply_output {handler : MimeHandler} (h : handler ∈ mimeHandlers)
    (ha : handler.output = some .doApplyCgi) : handler.pattern = APPLY := (rows.1 handler h).2.1 ha

/-- The rows that check nobody show a page or a file, or survey the site. -/
theorem open_row {handler : MimeHandler} (h : handler ∈ mimeHandlers) (ha : handler.auth = false) :
    handler.input ≠ some .doUpgradePost ∧ (handler.output = some .doEj ∨
      handler.output = some .doFile ∨ handler.output = some .doSiteSurveyCgi) :=
  (rows.1 handler h).2.2.1 ha

theorem output_row {handler : MimeHandler} (h : handler ∈ mimeHandlers) :
    handler.output ≠ none := (rows.1 handler h).2.2.2

theorem login_row :
    findHandler LOGIN = some ⟨.ofString "**.asp", none, some .doEj, true⟩ := rows.2

theorem findHandler_mem {file : CStr} {handler : MimeHandler}
    (h : findHandler file = some handler) : handler ∈ mimeHandlers := List.mem_of_find?_eq_some h

/-! ## What an answer changes -/

section
variable {L : Libc} {x : Context} {req : Request} {st : Server}

theorem authorizationOf_ok_iff :
    (∃ a, authorizationOf L x req = .ok a) ↔ AuthFits L x req := by
  unfold authorizationOf AuthFits
  cases req.cookie with
  | none => simp
  | some cookie =>
    simp only [Option.some.injEq, forall_eq']
    rw [parseCookieInfo]
    split_ifs with hempty
    · simp [hempty]
    · rw [getCookie_ok_iff]
      exact ⟨fun h _ => h, fun h => h hempty⟩

theorem SameButLang.refl (M : Variables) : SameButLang M M := fun _ _ => rfl

theorem PublicPagesRead.same (h : PublicPagesRead x) {file : CStr} (hp : Public file) (form : Form)
    (M : Variables) : (onMap (x.page file form) M).2 = M := by
  funext m
  exact (h file hp form).onMap not_false M

/-- Code that runs to its end without saving, and changes no variable but the language. -/
def Quiet (p : Api (Except Fault Applied)) (M : Variables) : Prop :=
  ∃ a, (onMap p M).1 = .ok a ∧ a.saved = false ∧ SameButLang M (onMap p M).2

theorem quiet_nothing (M : Variables) : Quiet (pure (.ok {})) M := ⟨{}, rfl, rfl, .refl M⟩

theorem not_quiet_error (e : Fault) (M : Variables) : ¬ Quiet (pure (.error e)) M := by
  rintro ⟨a, ha, _⟩
  cases ha

theorem saveLang_confined {v : Variable} (hv : v.name = LANG) (value : CStr) :
    Confined (fun m => m = LANG) (saveLang v value) := by
  apply (confined_safeGet v.name).bind
  intro old
  split_ifs
  · exact ⟨hv, fun _ => trivial⟩
  · trivial

/-- The part for the language goes wrong unless the form and the table name it, and sets nothing
else. -/
theorem applyLang_quiet (form : Form) (M : Variables) :
    Quiet (applyLang x form) M ↔ form LANG ≠ none ∧ ∃ v ∈ x.table, v.name = LANG := by
  unfold applyLang
  cases hform : form LANG with
  | none => exact iff_of_false (not_quiet_error _ _) fun h => h.1 rfl
  | some value =>
    dsimp only
    cases hfind : x.table.find? fun v => v.name = LANG with
    | none =>
      apply iff_of_false (not_quiet_error _ _)
      rintro ⟨-, v, hv, hname⟩
      exact List.find?_eq_none.mp hfind v hv (decide_eq_true hname)
    | some v =>
      have hname : v.name = LANG := by simpa using List.find?_some hfind
      apply iff_of_true _ ⟨by simp, v, List.mem_of_find?_eq_some hfind, hname⟩
      dsimp only
      split_ifs with hvalid
      · have hsave : Confined (fun m => m = LANG)
            (saveLang v value >>= fun _ => pure (Except.ok { : Applied } : Except Fault Applied)) :=
          (saveLang_confined hname value).bind fun _ => trivial
        refine ⟨{}, ?_, rfl, fun m hm => hsave.onMap hm M⟩
        rw [onMap_bind]
        rfl
      · exact quiet_nothing M

/-- What `config_validate` sets changes nothing exactly if the wizard is idle. -/
theorem wizardIdle_iff {form : Form} {ret b : Bool}
    (h : (onMap (configValidate x.unspecified x.legalStatic form ret x.table) st.nvram).1 = .ok b) :
    SameButLang st.nvram
        (onMap (configValidate x.unspecified x.legalStatic form ret x.table) st.nvram).2 ↔
      WizardIdle x st form := by
  obtain ⟨hasked, hnot⟩ := configValidate_store x.names_nodup h
  by_cases ha : AsksWizard form x.table
  · rw [hasked ha, wizardSets_store]
    cases ht : (onMap (wizardWan x.unspecified x.legalStatic form) st.nvram).1 with
    | none => exact iff_of_true (.refl _) fun _ t h => by simp [ht] at h
    | some t =>
      have hlang : ∀ t : WanType, ∀ a ∈ t.settings, a.1 ≠ LANG := by
        intro t
        cases t <;> decide
      refine (settings_same_iff t (hlang t)).trans ⟨fun h _ t' ht' => ?_, fun h => h ha t ht⟩
      cases ht.symm.trans ht'
      exact h
  · rw [hnot ha]
    exact iff_of_true (.refl _) fun h => absurd h ha

/-- A form that is checked changes nothing exactly if it is refused while the wizard is idle. -/
theorem applyForm_quiet (form : Form) :
    Quiet (applyForm x form) st.nvram ↔ Refuses x st form ∧ WizardIdle x st form := by
  unfold Quiet Refuses
  rw [applyForm, onMap_bind]
  cases hv : (onMap (configValidate x.unspecified x.legalStatic form true x.table) st.nvram).1 with
  | error e => simp
  | ok b =>
    rw [← wizardIdle_iff hv]
    cases b with
    | false => simp
    | true => simp [onMap_bind]

/-- `apply_cgi` for somebody who is not known. -/
theorem applyCgi_quiet {code : ℤ} (hcode : code ≠ 0) (c : Cgi) :
    Quiet (applyCgi L x code true c) st.nvram ↔ Withheld x st (getCgi L c) := by
  have hAL : CStr.ofString "Apply" ≠ LANG := by decide
  unfold applyCgi Withheld
  dsimp only
  generalize getCgi L c = form
  generalize websGetVar form "action" = action
  by_cases hG : action = .ofString "Gozila"
  · rw [if_pos hG]
    exact iff_of_false (not_quiet_error _ _) fun h => h.2.1 hG
  rw [if_neg hG]
  by_cases hA : action = .ofString "Apply"
  · rw [if_pos hA, applyForm_quiet]
    exact ⟨fun h => ⟨fun _ => h, hG, fun hl => absurd (hA.symm.trans hl) hAL⟩, fun h => h.1 hA⟩
  rw [if_neg hA]
  by_cases hl : action = LANG
  · rw [if_pos hl, applyLang_quiet]
    exact ⟨fun h => ⟨fun ha => absurd ha hA, hG, fun _ => h⟩, fun h => h.2.2 hl⟩
  · rw [if_neg hl, if_neg hcode]
    have hw : (action = .ofString "Apply" → Refuses x st form ∧ WizardIdle x st form) ∧
        action ≠ .ofString "Gozila" ∧
        (action = LANG → form LANG ≠ none ∧ ∃ v ∈ x.table, v.name = LANG) :=
      ⟨fun ha => absurd ha hA, hG, fun ha => absurd ha hl⟩
    split_ifs <;> exact iff_of_true (quiet_nothing _) hw

/-- The row of `apply.cgi` answers somebody who is not known as it answers everybody. -/
theorem answer_apply {r : Routed} {s : Server} (hout : r.handler.output = some .doApplyCgi)
    (hfile : r.file = LOGIN) (hcode : r.authState ≠ 0) :
    (∃ t, answer L x req r s = .ok (t, false) ∧ SameButLang s.nvram t.nvram) ↔
      (req.method = POST → Withheld x s (getCgi L s.cgi)) := by
  have hrefused : refused r s.cgi = false := by simp [refused, hfile]
  have hquestion : QUESTION ∉ r.file.val := by
    rw [hfile]
    decide
  have hquiet : (∃ t, answer L x req r s = .ok (t, false) ∧ SameButLang s.nvram t.nvram) ↔
      Quiet (doApplyCgi L x req r s.cgi) s.nvram := by
    unfold answer Quiet
    rw [hout]
    dsimp only
    rw [if_neg (by simp [hrefused])]
    cases onMap (doApplyCgi L x req r s.cgi) s.nvram with
    | mk result M =>
      cases result with
      | error e => simp
      | ok a => simp
  rw [hquiet, doApplyCgi]
  by_cases hpost : req.method = POST
  · rw [if_pos (.inl hpost), queryCgi, if_pos hpost, decide_eq_true hcode, applyCgi_quiet hcode]
    exact ⟨fun h _ => h, fun h => h hpost⟩
  · rw [if_neg (by simp [hpost, hquestion])]
    exact iff_of_true (quiet_nothing _) fun h => absurd h hpost

theorem entered_nvram {r : Routed} (h : r.handler.input ≠ some .doUpgradePost) :
    (entered L x req r st).nvram = st.nvram := if_neg h

variable (L req) in
/-- A page that is shown to anybody, a file and a survey change nothing. -/
theorem answer_open (hpages : PublicPagesRead x) {r : Routed} {s : Server}
    (hout : r.handler.output = some .doEj ∧ Public r.file ∨ r.handler.output = some .doFile ∨
      r.handler.output = some .doSiteSurveyCgi) :
    ∃ t, answer L x req r s = .ok (t, false) ∧ t.nvram = s.nvram := by
  unfold answer
  obtain ⟨hout, hp⟩ | hout | hout := hout
  · rw [hout]
    exact ⟨_, rfl, hpages.same hp _ _⟩
  · rw [hout]
    exact ⟨_, rfl, rfl⟩
  · rw [hout]
    exact ⟨_, rfl, rfl⟩

/-- Where the check of a known row leads. -/
theorem changesNothing_checked {name a : CStr} {handler : MimeHandler}
    (hserved : st.refuseRequest = false) (hname : fileOf req.path = some name)
    (ha : authorizationOf L x req = .ok a)
    (hhandler : findHandler (servedFile x st.nvram name) = some handler) :
    ChangesNothing L x req st ↔
      ∃ r, checked x st.nvram st.authState a handler (servedFile x st.nvram name) = .ok r ∧
        ∃ t, (if st.rebootAction = 2 then .ok (entered L x req r st, false)
            else answer L x req r (entered L x req r st)) = .ok (t, false) ∧
          SameButLang st.nvram t.nvram := by
  unfold ChangesNothing handleRequest arrive route
  rw [hserved, if_neg Bool.false_ne_true, hname]
  dsimp only
  rw [ha, hhandler]
  dsimp only
  cases checked x st.nvram st.authState a handler (servedFile x st.nvram name) with
  | error e => simp [Except.map]
  | ok r =>
    simp only [Except.map, Except.ok.injEq, exists_eq_left']
    split_ifs <;> rfl

/-- A row that checks nobody serves its own file. -/
theorem changesNothing_open (hpages : PublicPagesRead x) {name a : CStr} {handler : MimeHandler}
    (hserved : st.refuseRequest = false) (hname : fileOf req.path = some name)
    (ha : authorizationOf L x req = .ok a)
    (hhandler : findHandler (servedFile x st.nvram name) = some handler)
    (hauth : handler.auth = false) : ChangesNothing L x req st := by
  obtain ⟨hinput, hout⟩ := open_row (findHandler_mem hhandler) hauth
  rw [changesNothing_checked hserved hname ha hhandler, checked, if_neg (by simp [hauth])]
  have hpublic : Public (servedFile x st.nvram name) := .inr ⟨handler, hhandler, hauth⟩
  refine ⟨_, rfl, ?_⟩
  split_ifs
  · refine ⟨_, rfl, ?_⟩
    rw [entered_nvram hinput]
    exact .refl _
  · obtain ⟨t, ht, hsame⟩ := answer_open L req hpages
      (r := ⟨handler, servedFile x st.nvram name, st.authState⟩)
      (s := entered L x req ⟨handler, servedFile x st.nvram name, st.authState⟩ st)
      (hout.imp_left fun h => ⟨h, hpublic⟩)
    refine ⟨t, ht, ?_⟩
    rw [hsame, entered_nvram hinput]
    exact .refl _

/-- A row that checks who is asking, for somebody who is not known. -/
theorem changesNothing_auth (hpages : PublicPagesRead x) {name a : CStr} {handler : MimeHandler}
    (hserved : st.refuseRequest = false) (hname : fileOf req.path = some name)
    (ha : authorizationOf L x req = .ok a)
    (hhandler : findHandler (servedFile x st.nvram name) = some handler)
    (hauth : handler.auth = true) {code : ℤ} (hcode : authenticate x st.nvram a = .ok code)
    (hunknown : code ≠ 0) :
    ChangesNothing L x req st ↔
      (handler.pattern = APPLY → req.method = POST → st.rebootAction ≠ 2 →
        Withheld x st (getCgi L (doApplyPost L x req st.cgi))) := by
  rw [changesNothing_checked hserved hname ha hhandler, checked, if_pos hauth, hcode]
  dsimp only
  rw [if_neg hunknown]
  simp only [Except.ok.injEq, exists_eq_left']
  by_cases hpat : handler.pattern = APPLY
  · have hrow := apply_row (findHandler_mem hhandler) hpat
    rw [loginHandler, if_pos hpat, hrow]
    by_cases hreboot : st.rebootAction = 2
    · rw [if_pos hreboot]
      exact iff_of_true ⟨_, rfl, .refl _⟩ fun _ _ h => absurd hreboot h
    · rw [if_neg hreboot]
      exact (answer_apply rfl rfl hunknown).trans
        ⟨fun h _ hpost _ => h hpost, fun h hpost => h rfl hpost hreboot⟩
  · rw [loginHandler, if_neg hpat, login_row]
    refine iff_of_true ?_ fun h => absurd h hpat
    split_ifs
    · exact ⟨_, rfl, .refl _⟩
    · obtain ⟨t, ht, hsame⟩ := answer_open L req hpages
        (r := ⟨⟨.ofString "**.asp", none, some .doEj, true⟩, LOGIN, code⟩)
        (s := entered L x req ⟨⟨.ofString "**.asp", none, some .doEj, true⟩, LOGIN, code⟩ st)
        (.inl ⟨rfl, .inl rfl⟩)
      refine ⟨t, ht, ?_⟩
      rw [hsame, entered_nvram (by simp)]
      exact .refl _

/-- What is asked of a request that reaches a row. -/
theorem contained_served {name a : CStr} {handler : MimeHandler}
    (hserved : st.refuseRequest = false) (hname : fileOf req.path = some name)
    (ha : authorizationOf L x req = .ok a)
    (hhandler : findHandler (servedFile x st.nvram name) = some handler) :
    Contained L x req st ↔
      (handler.auth = true → ∃ code, authenticate x st.nvram a = .ok code) ∧
        (handler.pattern = APPLY → req.method = POST → st.rebootAction ≠ 2 →
          Withheld x st (getCgi L (doApplyPost L x req st.cgi))) := by
  have hfits : AuthFits L x req := authorizationOf_ok_iff.mp ⟨a, ha⟩
  unfold authenticate
  dsimp only
  rw [authCheck2_ok_iff]
  simp [Contained, hserved, hname, ha, hhandler, hfits]

/-- The same for the row it reaches. -/
theorem changesNothing_served (hunknown : NotAccepted L x req st) (hpages : PublicPagesRead x)
    {name a : CStr} {handler : MimeHandler} (hserved : st.refuseRequest = false)
    (hname : fileOf req.path = some name) (ha : authorizationOf L x req = .ok a)
    (hhandler : findHandler (servedFile x st.nvram name) = some handler) :
    ChangesNothing L x req st ↔ Contained L x req st := by
  rw [contained_served hserved hname ha hhandler]
  cases hauth : handler.auth with
  | false =>
    refine iff_of_true (changesNothing_open hpages hserved hname ha hhandler hauth)
      ⟨fun h => absurd h Bool.false_ne_true, fun hpat => ?_⟩
    rw [apply_row (findHandler_mem hhandler) hpat] at hauth
    cases hauth
  | true =>
    cases hcode : authenticate x st.nvram a with
    | error e =>
      apply iff_of_false
      · rw [changesNothing_checked hserved hname ha hhandler, checked, if_pos hauth, hcode]
        rintro ⟨r, hr, _⟩
        cases hr
      · rintro ⟨h, _⟩
        obtain ⟨code, h⟩ := h rfl
        cases h
    | ok code =>
      have hne : code ≠ 0 := fun h => hunknown a ha (h ▸ hcode)
      rw [changesNothing_auth hpages hserved hname ha hhandler hauth hcode hne]
      exact ⟨fun h => ⟨fun _ => ⟨code, rfl⟩, h⟩, And.right⟩

/-- A request that is not authenticated changes nothing exactly if it is contained. -/
theorem changesNothing_iff (hunknown : NotAccepted L x req st) (hpages : PublicPagesRead x) :
    ChangesNothing L x req st ↔ Contained L x req st := by
  by_cases hrefuse : st.refuseRequest = true
  · refine iff_of_true ⟨st, ?_, .refl _⟩ (.inl hrefuse)
    rw [handleRequest, arrive, if_pos hrefuse]
  have hserved : st.refuseRequest = false := by simpa using hrefuse
  have hroute : (∃ e, route L x req st = .error e) → ¬ ChangesNothing L x req st := by
    rintro ⟨e, he⟩ ⟨t, ht, _⟩
    rw [handleRequest, arrive, if_neg hrefuse, he] at ht
    cases ht
  have hnowhere : route L x req st = .ok none → ChangesNothing L x req st := fun h =>
    ⟨st, by rw [handleRequest, arrive, if_neg hrefuse, h], .refl _⟩
  cases hname : fileOf req.path with
  | none =>
    refine iff_of_true (hnowhere ?_) (.inr fun name h => by simp [hname] at h)
    rw [route, hname]
  | some name =>
    cases ha : authorizationOf L x req with
    | error e =>
      refine iff_of_false (hroute ⟨e, ?_⟩) ?_
      · rw [route, hname, ha]
      · rintro (h | h)
        · exact hrefuse h
        · obtain ⟨a, h⟩ := authorizationOf_ok_iff.mpr (h name hname).1
          cases ha.symm.trans h
    | ok a =>
      cases hhandler : findHandler (servedFile x st.nvram name) with
      | none =>
        refine iff_of_true (hnowhere ?_) (.inr fun name' h =>
          ⟨authorizationOf_ok_iff.mp ⟨a, ha⟩, fun handler h' => ?_⟩)
        · rw [route, hname, ha]
          dsimp only
          rw [hhandler]
        · cases hname.symm.trans h
          cases hhandler.symm.trans h'
      | some handler => exact changesNothing_served hunknown hpages hserved hname ha hhandler

end

/-! ## A visitor without a cookie -/

/-- The row `sm_rule` of `variables`, with `valid_session_manager` and `save_session_manager`. -/
def sessionManager : Variable where
  name := .ofString "sm_rule"
  nullok := false
  valid form _ := pure (.ok (validWord (websGetVar form "bw_sm_mode")))
  valid_reads _ _ := trivial
  save form _ :=
    let mode := websGetVar form "bw_sm_mode"
    if TMP_LEN - 1 < mode.len then pure (false, none)
    else do
      let old ← nvramSafeGet (.ofString "sm_mode")
      if mode ≠ old then
        let _ ← Api.set (.ofString "sm_mode") (some mode)
        pure (true, none)
      else pure (false, none)

/-- A system with this row, in which pages set nothing. -/
def plain : Context where
  unspecified := ⟨id, Unspecified.id_plain, CStr.empty, 0⟩
  junk := 0
  table := [sessionManager]
  names_nodup := List.nodup_singleton _
  legalStatic _ := false
  languages := []
  page _ _ := pure ()
  act _ _ := pure ()
  upgradePost := pure ()
  leaves := id
  running := false
  upgrading := false

/-- A store with a name, a password and a mode. -/
def stored : Variables := fun m =>
  if m = .ofString "http_rule" then some (.ofString "http^1^0^admin^pw^80")
  else if m = .ofString "sm_mode" then some (.ofString "fast")
  else none

/-- A form that is posted with a cookie or without one. -/
def posted (path : String) (cookie : Option String) (body : String) : Request where
  method := POST
  path := .ofString path
  rest := []
  cookie := cookie.map fun c => (CStr.ofString c).stored
  contentLength := body.length
  body := (CStr.ofString body).val

theorem posted_notAccepted (path body : String) :
    NotAccepted libc plain (posted path none body) (Server.boot stored) := by
  intro a ha
  cases ha
  decide +kernel

theorem plain_pages : PublicPagesRead plain := fun _ _ _ => trivial

/-- A login that fails is contained. -/
theorem changesNothing_login :
    let req := posted "/apply.cgi" none "action=Login&lang=en"
    NotAccepted libc plain req (Server.boot stored) ∧ PublicPagesRead plain ∧
      Contained libc plain req (Server.boot stored) ∧
      ChangesNothing libc plain req (Server.boot stored) := by
  intro req
  have hunknown := posted_notAccepted "/apply.cgi" "action=Login&lang=en"
  have hcontained : Contained libc plain req (Server.boot stored) := by
    refine .inr fun name hname =>
      ⟨fun cookie h => ?_, fun handler hhandler => ⟨fun _ a ha => ?_, ?_⟩⟩
    · cases h
    · cases ha
      exact ⟨by decide, by decide⟩
    · intro _ _ _
      have haction : websGetVar (getCgi libc (doApplyPost libc plain req (Server.boot stored).cgi))
          "action" = .ofString "Login" := by decide +kernel
      unfold Withheld
      rw [haction]
      exact ⟨fun h => absurd h (by decide), by decide, fun h => absurd h (by decide)⟩
  exact ⟨hunknown, plain_pages, hcontained,
    (changesNothing_iff hunknown plain_pages).mpr hcontained⟩

/-- A run that was evaluated. -/
theorem of_toOption {ε α : Type} {e : Except ε α} {a : α} (h : e.toOption = some a) :
    e = .ok a := by
  cases e with
  | error e => cases h
  | ok b => rw [Option.some.inj h]

/-- Without a cookie, the mode of the session manager is applied and saved. -/
theorem apply_saves :
    let req := posted "/apply.cgi" none "action=Apply&sm_rule=1&bw_sm_mode=slow"
    (onMap (doAuth plain.unspecified) stored).1 = (.ofString "admin", .ofString "pw") ∧
      NotAccepted libc plain req (Server.boot stored) ∧
      ∃ t, handleRequest libc plain req (Server.boot stored) = .ok (t, true) ∧
        stored (.ofString "sm_mode") = some (.ofString "fast") ∧
        t.nvram (.ofString "sm_mode") = some (.ofString "slow") := by
  intro req
  refine ⟨by decide +kernel, posted_notAccepted _ _, ?_⟩
  have hrun : (handleRequest libc plain req (Server.boot stored)).toOption.map
      (fun r => (r.2, r.1.nvram (.ofString "sm_mode"))) =
      some (true, some (.ofString "slow")) := by decide +kernel
  obtain ⟨⟨t, saved⟩, ht, hrun⟩ := Option.map_eq_some_iff.mp hrun
  simp only [Prod.mk.injEq] at hrun
  obtain ⟨rfl, hmode⟩ := hrun
  exact ⟨t, of_toOption ht, by decide +kernel, hmode⟩

end EzpFirmware.Httpd
