import EzpFirmware.Httpd.Forms
import EzpFirmware.Httpd.Validation

/-! # Serving one request

`handle_request` finds the row for the file of a request, checks who is asking,
lets the row read the body and lets it answer. Somebody who is not known gets the
login page in place of the file, except that the row of `apply.cgi` stays.
-/
namespace EzpFirmware.Httpd
open Lib UserNvram

def POST_BUF_SIZE : ℕ := 40960

/-- The rest of the program and of the system, at the time of a request. `table` is the array
`variables`. -/
structure Context where
  unspecified : Unspecified
  /-- What an unset variable on the stack holds. -/
  junk : UInt8
  table : List Variable
  names_nodup : (table.map Variable.name).Nodup
  /-- Whether `valid_wizard` takes the addresses of a static connection. -/
  legalStatic : Form → Bool
  /-- The names in `lang_map`. -/
  languages : List CStr
  /-- What the scripts of a page do to the variables, when `do_ej` runs them. -/
  page : CStr → Form → Api Unit
  /-- The same for the functions that answer, apart from those that are modelled here. -/
  act : Output → Form → Api Unit
  /-- The same for `do_upgrade_post`, which may import a configuration. -/
  upgradePost : Api Unit
  /-- What an answer leaves in `post_buf`, where the values it was given are. -/
  leaves : List UInt8 → List UInt8
  /-- `process_is_running` for the `transmission-daemon`. -/
  running : Bool
  /-- Whether an upgrade leaves further requests refused. -/
  upgrading : Bool

/-- A request, its first line and its headers taken apart. -/
structure Request where
  method : CStr
  path : CStr
  /-- The memory of the line behind the path. -/
  rest : List UInt8
  /-- The memory from the cookie on. -/
  cookie : Option (List UInt8)
  contentLength : ℤ
  body : List UInt8

/-- The state of the server between requests. -/
structure Server where
  cgi : Cgi
  authState : ℤ
  rebootAction : ℕ
  refuseRequest : Bool
  nvram : Variables

/-- A server that has just started. -/
def Server.boot (nvram : Variables) : Server := ⟨⟨[], [], none⟩, 1, 0, false, nvram⟩

def APPLY : CStr := .ofString "apply.cgi*"

def LOGIN : CStr := .ofString "login.asp"

def POST : CStr := .ofString "POST"

/-! ## Finding the row -/

/-- The file of a path, unless the path is illegal. -/
def fileOf (path : CStr) : Option CStr :=
  match CStr.cut SLASH path with
  | some (⟨[], _⟩, file) =>
    if file.val.head? = some SLASH ∧ 2 ≤ file.len ∨
        (strstr file.val (CStr.ofString "..").val).isSome then none
    else some file
  | _ => none

/-- The page for an empty file. -/
def defaultPage (x : Context) (nvram : Variables) : CStr :=
  let wanState := (onMap (attrVal x.unspecified (.ofString "wan_status_rule")
    (.ofString "state") 5) nvram).1
  if atoi wanState = 4 then .ofString "exp_dashboard.asp" else .ofString "landing.asp"

/-- The file that is served for a name. -/
def servedFile (x : Context) (nvram : Variables) (name : CStr) : CStr :=
  if name = CStr.empty then defaultPage x nvram else name

/-- The name and password that come with a request. -/
def authorizationOf (L : Libc) (x : Context) (req : Request) : Except Fault CStr :=
  match req.cookie with
  | none => .ok CStr.empty
  | some cookie => parseCookieInfo L x.junk cookie

/-- `auth_check2` with the stored name and password. -/
def authenticate (x : Context) (nvram : Variables) (authorization : CStr) : Except Fault ℤ :=
  let stored := (onMap (doAuth x.unspecified) nvram).1
  (onMap (authCheck2 x.unspecified stored.1 stored.2 authorization) nvram).1

/-- A row and the file it serves. -/
structure Routed where
  handler : MimeHandler
  file : CStr
  authState : ℤ

/-- The row that a failed check leads to: that of the login page, unless it was `apply.cgi`. Behind
the table there is a row with nothing in it. -/
def loginHandler (handler : MimeHandler) : MimeHandler :=
  if handler.pattern = APPLY then handler
  else (findHandler LOGIN).getD ⟨CStr.empty, none, none, false⟩

/-- The row and the file after the check. -/
def checked (x : Context) (nvram : Variables) (authState : ℤ) (authorization : CStr)
    (handler : MimeHandler) (file : CStr) : Except Fault Routed :=
  if handler.auth then
    match authenticate x nvram authorization with
    | .error e => .error e
    | .ok code =>
      if code = 0 then .ok ⟨handler, file, code⟩ else .ok ⟨loginHandler handler, LOGIN, code⟩
  else .ok ⟨handler, file, authState⟩

/-- Where a request goes; nowhere if it is answered with an error page. -/
def route (L : Libc) (x : Context) (req : Request) (st : Server) : Except Fault (Option Routed) :=
  match fileOf req.path with
  | none => .ok none
  | some name =>
    let file := servedFile x st.nvram name
    match authorizationOf L x req with
    | .error e => .error e
    | .ok authorization =>
      match findHandler file with
      | none => .ok none
      | some handler => (checked x st.nvram st.authState authorization handler file).map some

/-! ## Reading the body -/

/-- The text that `do_apply_post` reads. -/
def submitted (req : Request) : Option (List UInt8) :=
  if req.method = POST ∧ 0 ≤ req.contentLength ∧ req.contentLength ≤ POST_BUF_SIZE - 1 then
    match req.body.take req.contentLength.toNat with
    | [] => none
    | b :: rest => some (b :: rest)
  else none

/-- `do_apply_post`. -/
def doApplyPost (L : Libc) (x : Context) (req : Request) (c : Cgi) : Cgi :=
  let c := { c with post := poke c.post 0 [0] }
  match submitted req with
  | none => c
  | some data => initCgi L x.junk (some start) { c with post := poke c.post 0 (data ++ [0]) }

/-! ## Applying a form -/

/-- `valid_lang`. -/
def validLang (languages : List CStr) (v : Variable) (value : CStr) : Bool :=
  if value = CStr.empty then v.nullok else validWord value && value ∈ languages

/-- `save_lang`, whose row asks for no action. -/
def saveLang (v : Variable) (value : CStr) : Api Unit := do
  let old ← nvramSafeGet v.name
  if value ≠ old then
    let _ ← Api.set v.name (some value)
    pure ()
  else pure ()

/-- What `apply_cgi` has done: whether `config_save` was reached, and a new `reboot_action`. -/
structure Applied where
  saved : Bool := false
  rebootAction : Option ℕ := none

/-- The name of the variable for the language. -/
def LANG : CStr := .ofString "lang"

/-- The part of `apply_cgi` for the language. -/
def applyLang (x : Context) (form : Form) : Api (Except Fault Applied) :=
  match form LANG with
  | none => pure (.error .null)
  | some value =>
    match x.table.find? fun v => v.name = LANG with
    | none => pure (.error .outOfTable)
    | some v =>
      if validLang x.languages v value then do
        saveLang v value
        pure (.ok {})
      else pure (.ok {})

/-- `gozila_cgi`: the name of the page is written over the file of the request. -/
def gozilaCgi (L : Libc) (x : Context) (literal : Bool) (c : Cgi) : Api (Except Fault Applied) :=
  if literal then pure (.error .literal)
  else
    match getCgi L c (.ofString "submit_button") with
    | none => pure (.error .null)
    | some submitButton => do
      let path := submitButton.append (.ofString ".asp")
      x.page path (getCgi L { c with line := poke c.line 0 path.stored })
      pure (.ok {})

/-- The part of `apply_cgi` for a form that is to be saved. -/
def applyForm (x : Context) (form : Form) : Api (Except Fault Applied) := do
  match ← configValidate x.unspecified x.legalStatic form true x.table with
  | .error e => pure (.error e)
  | .ok false => pure (.ok {})
  | .ok true => do
    let r ← configSave form x.table
    pure (.ok { saved := true, rebootAction := r.2 })

/-- `apply_cgi`. `literal` says that the file is one of the names in the program itself. -/
def applyCgi (L : Libc) (x : Context) (authState : ℤ) (literal : Bool) (c : Cgi) :
    Api (Except Fault Applied) :=
  let form := getCgi L c
  let value := websGetVar form "action"
  if value = .ofString "Gozila" then gozilaCgi L x literal c
  else if value = .ofString "Apply" then applyForm x form
  else if value = LANG then applyLang x form
  else if value = .ofString "Login" then
    if authState = 0 then applyLang x form else pure (.ok {})
  else
    -- nothing, a widget, which only reads, or an action that is not known
    pure (.ok {})

/-- The test at the head of `do_apply_cgi`, which shows the login page instead. -/
def refused (r : Routed) (c : Cgi) : Bool :=
  r.authState ≠ 0 ∧ CStr.read c.post ≠ .ofString "login_rule" ∧ r.file ≠ LOGIN

/-- The variables in `do_apply_cgi`: those that were read, or those of the query. -/
def queryCgi (L : Libc) (x : Context) (req : Request) (file : CStr) (c : Cgi) : Cgi :=
  if req.method = POST then c
  else
    match CStr.cut QUESTION file with
    | none => initCgi L x.junk none c
    | some (path, query) =>
      initCgi L x.junk (some ⟨.line, path.stored.length⟩)
        { c with line := path.stored ++ query.stored ++ req.rest }

/-- What `do_apply_cgi` runs, unless there is no query. -/
def doApplyCgi (L : Libc) (x : Context) (req : Request) (r : Routed) (c : Cgi) :
    Api (Except Fault Applied) :=
  if req.method = POST ∨ QUESTION ∈ r.file.val then
    applyCgi L x r.authState (r.authState ≠ 0) (queryCgi L x req r.file c)
  else pure (.ok {})

/-! ## The request -/

/-- The state behind the reading of the body. -/
def entered (L : Libc) (x : Context) (req : Request) (r : Routed) (st : Server) : Server :=
  { st with
    cgi := if r.handler.input = some .doApplyPost then doApplyPost L x req st.cgi else st.cgi
    authState := r.authState
    refuseRequest := r.handler.input = some .doUpgradePost
    nvram := if r.handler.input = some .doUpgradePost then (onMap x.upgradePost st.nvram).2
      else st.nvram }

/-- The state when the answer starts, and the row that answers, if one does. -/
def arrive (L : Libc) (x : Context) (req : Request) (st : Server) :
    Except Fault (Server × Option Routed) :=
  if st.refuseRequest then .ok (st, none)
  else
    match route L x req st with
    | .error e => .error e
    | .ok none => .ok (st, none)
    | .ok (some r) =>
      .ok (entered L x req r st, if st.rebootAction = 2 then none else some r)

/-- The variables as an answer is given them. -/
def variablesFor (L : Libc) (x : Context) (req : Request) (r : Routed) (c : Cgi) : Cgi :=
  if r.handler.output = some .doApplyCgi ∧ refused r c = false then queryCgi L x req r.file c else c

/-- What another answer does to the variables. -/
def act (x : Context) (file : CStr) (form : Form) : Output → Api Unit
  | .doEj => x.page file form
  | .doFile | .doSiteSurveyCgi => pure ()
  | output => x.act output form

/-- The answer: the state behind it, and whether `config_save` was reached. -/
def answer (L : Libc) (x : Context) (req : Request) (r : Routed) (st : Server) :
    Except Fault (Server × Bool) :=
  let c := variablesFor L x req r st.cgi
  let left (c : Cgi) (flush : Bool) : Cgi :=
    { c with post := x.leaves c.post, htab := if flush then none else c.htab }
  match r.handler.output with
  | none => .ok (st, false)
  | some .doApplyCgi =>
    if refused r st.cgi then
      .ok ({ st with
        cgi := left c false
        nvram := (onMap (x.page LOGIN (getCgi L c)) st.nvram).2 }, false)
    else
      match onMap (doApplyCgi L x req r st.cgi) st.nvram with
      | (.error e, _) => .error e
      | (.ok applied, nvram) =>
        .ok ({ st with
          cgi := left c true
          rebootAction := applied.rebootAction.getD st.rebootAction
          nvram := nvram }, applied.saved)
  | some output =>
    .ok ({ st with
      cgi := left c (flushes x.running (getCgi L c) output)
      refuseRequest := if output = .doUpgradeCgi then x.upgrading else st.refuseRequest
      nvram := (onMap (act x r.file (getCgi L c) output) st.nvram).2 }, false)

/-- `handle_request`. -/
def handleRequest (L : Libc) (x : Context) (req : Request) (st : Server) :
    Except Fault (Server × Bool) :=
  match arrive L x req st with
  | .error e => .error e
  | .ok (st, none) => .ok (st, false)
  | .ok (st, some r) => answer L x req r st

end EzpFirmware.Httpd
