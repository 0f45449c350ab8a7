import EzpFirmware.Bcclient.Credentials

/-! # The command handlers

The dispatcher drops packets that are not for this router, looks the command up
in its table and answers with the return code. No command is authenticated
before its handler runs.
-/
namespace EzpFirmware.Bcclient
open Lib UserNvram

def COMMON_BUFFER_LENGTH : ℕ := 128

def FINDER_CMD_ACQUIRE_SERVER : ℕ := 1
def FINDER_CMD_ACQUIRE_CONFIG : ℕ := 2
def FINDER_CMD_AUTHENTICATE : ℕ := 3
def FINDER_CMD_MODIFY_CONFIG : ℕ := 4
def FINDER_CMD_ACQUIRE_DETAILS : ℕ := 5
def FINDER_CMD_SET_SERVER_NAME : ℕ := 19
def FINDER_CMD_SET_USER_PASSWORD : ℕ := 20
def FINDER_CMD_SET_NETWORK : ℕ := 23
def FINDER_CMD_REBOOT : ℕ := 25

def TAG_SERVER_NAME : ℕ := 1
def TAG_VERSION : ℕ := 2
def TAG_DATE : ℕ := 3
def TAG_TIME : ℕ := 4
def TAG_ETH00_IP_ADDRESS : ℕ := 5
def TAG_ETH00_SUBNET_MASK : ℕ := 7
def TAG_ETH00_MAC_ADDRESS : ℕ := 12
def TAG_REBOOT : ℕ := 16
def TAG_MODEL_NAME : ℕ := 40
def TAG_OLD_ADMIN_NAME : ℕ := 51
def TAG_OLD_PASSWORD : ℕ := 52
def TAG_PORT_NUMBER : ℕ := 53
def TAG_TEMP_KEY : ℕ := 88
def TAG_BATTERY_STATUS : ℕ := 95
def TAG_USB_TOTAL_STORAGE : ℕ := 96
def TAG_SD_TOTAL_STORAGE : ℕ := 97
def TAG_USB_REMAIN_STORAGE : ℕ := 98
def TAG_SD_REMAIN_STORAGE : ℕ := 99
def TAG_OPERATION_RESULT : ℕ := 255
def TAG_EXT_FINDER_BROADCAST_IP : ℕ := 454
def TAG_EXT_MYCLOUDNAS_NAME : ℕ := 552
def TAG_EXT_ALLOW_NON_ENCRYPTED_AUTHENTICATION : ℕ := 563

/-- `ServerDetailInfo`, as far as the answers use it. -/
structure ServerDetailInfo where
  AllowNonEncryptedAuthentication : UInt32
  BatteryStatus : CStr
  SDTotal : CStr
  SDStatus : CStr
  USBTotal : CStr
  USBStatus : CStr
  ServerName : CStr
  Version : Vector UInt8 8
  Model : CStr
  Date : Vector UInt8 8
  Time : Vector UInt8 6
  CGIPort : UInt32
  lan0_ip : Vector UInt8 4
  lan0_mask : Vector UInt8 4
  myQNAPcloudDeviceName : CStr

/-- What the machine gives to the handlers of one packet. -/
structure Site extends Env where
  /-- `router` after `query_config_file`. -/
  router : Variables → ServerDetailInfo
  /-- `inet_ntoa(g_last_recv_sock_addr)`. -/
  recvIpStr : CStr
  /-- What the arrays `ip`, `sub_mask` and `time` hold before they are written. -/
  ip : Vector UInt8 4
  subMask : Vector UInt8 4
  time : Vector UInt8 COMMON_BUFFER_LENGTH
  /-- `mask_str_to_int`, by way of `ipcalc`. -/
  maskStrToInt : CStr → CStr

/-- What the language and the library leave open for the whole run. -/
structure Platform extends Unspecified where
  /-- What an uninitialised number reads as. -/
  int : UInt8

/-- What a handler does besides setting variables. -/
inductive Effect where
  /-- `nvram_commit`. -/
  | commit
  /-- `system` of `date -s`, with the fourteen characters that are put into it. -/
  | date (digits : List UInt8)
  /-- `reboot(RB_AUTOBOOT)`. -/
  | autoboot
  /-- `system` of `reboot -d 5`. -/
  | reboot
  deriving DecidableEq

/-- The variables and `FINDER_key_list`. -/
structure Device where
  nvram : Variables
  keys : KeyList

/-- What comes of a packet. -/
structure Outcome where
  ret : ℤ
  tags : TagList
  effects : List Effect
  dev : Device

/-- The tags that a row of calls adds. The calls of the handlers stay inside their slots. -/
def addTags (calls : List (TagList → Added)) (l : TagList) : TagList :=
  calls.foldl (fun l call => ((call l).map Prod.snd).getD l) l

/-! ## The handlers -/

section
variable (u : Platform) (env : Site) (p : Packet) (d : Device)

/-- `OnCmdAcquireServer`. -/
def onCmdAcquireServer (MACAddr : List UInt8) : Outcome :=
  let router := env.router d.nvram
  ⟨SUCCESS, addTags
    [(addExtTagStringToTagList · TAG_EXT_FINDER_BROADCAST_IP env.recvIpStr),
      (addTagIntegerToTagList · TAG_PORT_NUMBER router.CGIPort),
      (addTagStringToTagList · TAG_SERVER_NAME router.ServerName),
      (addTagStringToTagList · TAG_MODEL_NAME router.Model),
      (addExtTagIntegerToTagList · TAG_EXT_ALLOW_NON_ENCRYPTED_AUTHENTICATION
        router.AllowNonEncryptedAuthentication),
      (addTagToTagList · TAG_VERSION router.Version.toList),
      (addTagToTagList · TAG_TIME router.Time.toList),
      (addTagToTagList · TAG_DATE router.Date.toList),
      (addTagStringToTagList · TAG_BATTERY_STATUS router.BatteryStatus),
      (addTagStringToTagList · TAG_USB_TOTAL_STORAGE router.USBTotal),
      (addTagStringToTagList · TAG_SD_TOTAL_STORAGE router.SDTotal),
      (addTagStringToTagList · TAG_USB_REMAIN_STORAGE router.USBStatus),
      (addTagStringToTagList · TAG_SD_REMAIN_STORAGE router.SDStatus),
      (addTagToTagList · TAG_ETH00_MAC_ADDRESS MACAddr),
      (addExtTagStringToTagList · TAG_EXT_MYCLOUDNAS_NAME router.myQNAPcloudDeviceName)] [], [], d⟩

/-- The packet asks for a key: it has neither a name nor a password. -/
def Packet.AsksKey : Prop :=
  p.tag TAG_ADMIN_NAME BUF_LENGTH = [] ∧ p.tag TAG_PASSWORD BUF_LENGTH = []

instance : Decidable p.AsksKey := inferInstanceAs (Decidable (_ ∧ _))

/-- `OnCmdAuthenticate`. -/
def onCmdAuthenticate : Outcome :=
  if p.AsksKey then
    let ip := (addExtTagStringToTagList · TAG_EXT_FINDER_BROADCAST_IP env.recvIpStr)
    let r := getNewKeyByPacket env.tv env.fresh p.srcMac (expireKeyByPacket p.srcMac d.keys)
    match r.1 with
    | some i => ⟨SUCCESS, addTags
        [ip, (addTagIntegerArrayToTagList · TAG_TEMP_KEY (r.2 i).key.toList)] [], [],
        { d with keys := r.2 }⟩
    | none => ⟨ERROR_AUTHENTICATION, addTags [ip] [], [], { d with keys := r.2 }⟩
  else
    let r := checkAdmistratorPassword u.toUnspecified env.toEnv p d.nvram d.keys
    ⟨r.1, [], [], { d with keys := r.2 }⟩

/-- `OnCmdAcquireConfig`. -/
def onCmdAcquireConfig : Outcome :=
  let router := env.router d.nvram
  ⟨SUCCESS, addTags
    [(addTagStringToTagList · TAG_SERVER_NAME router.ServerName),
      (addTagToTagList · TAG_ETH00_IP_ADDRESS router.lan0_ip.toList),
      (addTagToTagList · TAG_ETH00_SUBNET_MASK router.lan0_mask.toList),
      (addTagToTagList · TAG_DATE router.Date.toList),
      (addTagToTagList · TAG_TIME router.Time.toList)] [], [], d⟩

/-- `OnCmdAcquireDetails`. -/
def onCmdAcquireDetails : Outcome :=
  let router := env.router d.nvram
  ⟨SUCCESS, addTags
    [(addTagStringToTagList · TAG_SERVER_NAME router.ServerName),
      (addTagStringToTagList · TAG_MODEL_NAME router.Model),
      (addTagToTagList · TAG_VERSION router.Version.toList),
      (addTagToTagList · TAG_ETH00_IP_ADDRESS router.lan0_ip.toList),
      (addTagToTagList · TAG_ETH00_SUBNET_MASK router.lan0_mask.toList)] [], [], d⟩

/-- A handler that sets variables and has its effects behind the check of the password. -/
def behindPassword (settings : Api Unit) (effects : List Effect) : Outcome :=
  let r := checkAdmistratorPassword u.toUnspecified env.toEnv p d.nvram d.keys
  if r.1 ≠ SUCCESS then ⟨ERROR_AUTHENTICATION, [], [], { d with keys := r.2 }⟩
  else ⟨SUCCESS, [], effects, ⟨(onMap settings d.nvram).2, r.2⟩⟩

/-- Four bytes in decimal, with dots. -/
def dotted (bytes : List UInt8) : CStr :=
  .ofString (".".intercalate (bytes.map fun b => toString b.toNat))

/-- An array of four bytes, after the data of a tag were copied to its start. -/
def addressOf (array : Vector UInt8 4) (data : List UInt8) : List UInt8 := poke array.toList 0 data

/-- The address of a packet goes to `lan0_ipaddr` and to `lan_static_rule`. -/
def setIp : Api Unit := do
  let saddr := dotted (addressOf env.ip (p.tag TAG_ETH00_IP_ADDRESS 4))
  let _ ← Api.set (.ofString "lan0_ipaddr") (some saddr)
  let _ ← ezplibReplaceAttr u.toUnspecified rules (.ofString "lan_static_rule") 0
    (.ofString "ipaddr") saddr
  pure ()

/-- The mask of a packet goes to `lan0_mask` and to `lan_static_rule`. -/
def setMask : Api Unit := do
  let maddr := env.maskStrToInt
    (dotted (addressOf env.subMask (p.tag TAG_ETH00_SUBNET_MASK 4)))
  let _ ← Api.set (.ofString "lan0_mask") (some maddr)
  let _ ← ezplibReplaceAttr u.toUnspecified rules (.ofString "lan_static_rule") 0
    (.ofString "mask") maddr
  pure ()

/-- The variables that `OnCmdModifyConfig` sets. -/
def modifySettings : Api Unit := do
  setIp u env p
  setMask u env p

/-- What `OnCmdModifyConfig` hands to `date -s`: the date and behind it the time of day. -/
def dateDigits : List UInt8 :=
  let text (tagId : ℕ) : CStr := CStr.read (p.tag tagId COMMON_BUFFER_LENGTH)
  let time := poke env.time.toList 0 (text TAG_DATE).stored
  (poke time (text TAG_DATE).len (text TAG_TIME).stored).take 14

/-- `OnCmdModifyConfig`. -/
def onCmdModifyConfig : Outcome :=
  let reboot := (p.tag TAG_REBOOT 1).headD 0
  behindPassword u env p d (modifySettings u env p)
    ([.date (dateDigits env p), .commit] ++ if reboot ≠ 0 then [.autoboot] else [])

/-- The variable that `OnCmdSetServerName` sets. -/
def nameSettings : Api Unit := do
  let _ ← Api.set (.ofString "wl0_ssid_rule")
    (some (CStr.read (p.tag TAG_SERVER_NAME COMMON_BUFFER_LENGTH)))
  pure ()

/-- `OnCmdSetServerName`. -/
def onCmdSetServerName : Outcome := behindPassword u env p d (nameSettings p) [.commit]

/-- `OnCmdSetNetwork`. -/
def onCmdSetNetwork : Outcome := behindPassword u env p d (setIp u env p) [.commit]

/-- `OnCmdReboot`. -/
def onCmdReboot : Outcome := ⟨SUCCESS, [], [.reboot], d⟩

/-! The array `data` of `OnCmdSetUserPassword` is zeroed once. Every tag is copied over what the
tags before it left. -/

def dataOldName : List UInt8 := filled BUF_LENGTH (p.tag TAG_OLD_ADMIN_NAME BUF_LENGTH)

def dataOldPassword : List UInt8 := poke (dataOldName p) 0 (p.tag TAG_OLD_PASSWORD BUF_LENGTH)

def dataName : List UInt8 := poke (dataOldPassword p) 0 (p.tag TAG_ADMIN_NAME BUF_LENGTH)

def dataPassword : List UInt8 := poke (dataName p) 0 (p.tag TAG_PASSWORD BUF_LENGTH)

/-- The old name and password that are decrypted. -/
def oldTexts (key : Key) : CStr × CStr :=
  (plainText key USERNAME_KEY (dataOldName p) (env.heap 0),
    plainText key PASSWORD_KEY (dataOldPassword p) (env.heap 1))

/-- The new name and password as the arrays hold them: without a password, or with an empty name,
the old one is still there. -/
def newTexts (key : Key) : CStr × CStr :=
  let plain := plainText key USERNAME_KEY (dataName p) (env.heap 2)
  (held MAXIMUM_USER_NAME_BUFFER_LENGTH env.behindUser plain,
    if 0 < plain.len ∧ p.tag TAG_PASSWORD BUF_LENGTH ≠ [] then
      held MAXIMUM_PASSWORD_BUFFER_LENGTH env.behindPwd
        (plainText key PASSWORD_KEY (dataPassword p) (env.heap 3))
    else (heldTexts env.toEnv (oldTexts env p key)).2)

/-- The variable that `OnCmdSetUserPassword` sets. -/
def passwordSettings (texts : CStr × CStr) : Api Unit := do
  let _ ← ezplibReplaceAttr u.toUnspecified rules (.ofString "http_rule") 0
    (.ofString "username") texts.1
  let _ ← ezplibReplaceAttr u.toUnspecified rules (.ofString "http_rule") 0
    (.ofString "passwd") texts.2
  pure ()

/-- `OnCmdSetUserPassword`. -/
def onCmdSetUserPassword : Outcome :=
  match getKeyByPacket env.tv p.srcMac d.keys with
  | (none, keys) => ⟨ERROR_BAD_PARAMETERS, [], [], { d with keys }⟩
  | (some i, keys) =>
    let key := (keys i).key
    if p.tag TAG_OLD_ADMIN_NAME BUF_LENGTH = [] ∨ p.tag TAG_OLD_PASSWORD BUF_LENGTH = [] then
      ⟨ERROR_AUTHENTICATION, [], [], { d with keys }⟩
    else if heldTexts env.toEnv (oldTexts env p key) ≠ routerTexts u.toUnspecified
        MAXIMUM_USER_NAME_BUFFER_LENGTH MAXIMUM_PASSWORD_BUFFER_LENGTH d.nvram then
      ⟨ERROR_AUTHENTICATION, [], [], { d with keys }⟩
    else
      let texts := newTexts env p key
      let keys := expireKeyByPacket p.srcMac keys
      if texts.1 ≠ CStr.empty ∧ texts.2 ≠ CStr.empty then
        ⟨SUCCESS, [], [.commit], ⟨(onMap (passwordSettings u texts) d.nvram).2, keys⟩⟩
      else ⟨ERROR_BAD_PARAMETERS, [], [], { d with keys }⟩

end

/-! ## The dispatcher -/

/-- `isspace` on a byte of an ASCII text. -/
def isspace (b : UInt8) : Bool := b = 0x20 ∨ 0x09 ≤ b ∧ b ≤ 0x0d

/-- The value of a hexadecimal digit. -/
def hexValue (b : UInt8) : Option UInt8 :=
  if 0x30 ≤ b ∧ b ≤ 0x39 then some (b - 0x30)
  else if 0x41 ≤ b ∧ b ≤ 0x46 then some (b - 0x37)
  else if 0x61 ≤ b ∧ b ≤ 0x66 then some (b - 0x57)
  else none

/-- The low byte of what `sscanf` of a hexadecimal number leaves in `n`. -/
def scanHex (n : UInt8) (buf : List UInt8) : UInt8 :=
  let text := buf.dropWhile isspace
  let negative := text.head? = some 0x2d
  let text := if negative ∨ text.head? = some 0x2b then text.tail else text
  match (text.takeWhile fun b => (hexValue b).isSome).filterMap hexValue with
  | [] => n
  | digits =>
    let value := digits.foldl (fun v digit => v * 16 + digit) 0
    if negative then 0 - value else value

/-- `mac_str_to_bytes`, from the piece at `i` on. -/
def macStrToBytes (str : CStr) : ℕ → ℕ → UInt8 → List UInt8
  | 0, _, _ => []
  | count + 1, i, n =>
    let n := scanHex n ((str.val.drop i).take 2)
    n :: macStrToBytes str count (i + 3) n

/-- `MACAddr`, as `main_flow` reads it before it looks at a packet. -/
def macAddr (u : Platform) (nvram : Variables) : List UInt8 :=
  macStrToBytes (text nvram (.ofString "lan_hwaddr_rule_default")) 6 0 u.int

/-- `is_valid_packet`. -/
def IsValidPacket (MACAddr : List UInt8) (p : Packet) : Prop :=
  p.cmd = FINDER_CMD_ACQUIRE_SERVER ∨ bytesAt p.mem 0 6 = MACAddr

/-- The packet gets to its handler: it has a whole header, is from no server and is valid. -/
def Arrives (u : Platform) (d : Device) (p : Packet) : Prop :=
  HEADER_SIZE ≤ p.cnt ∧ bytesAt p.mem 6 2 ≠ [0x53, 0x65] ∧
    IsValidPacket (macAddr u d.nvram) p

instance (MACAddr : List UInt8) (p : Packet) : Decidable (IsValidPacket MACAddr p) :=
  inferInstanceAs (Decidable (_ ∨ _))

instance (u : Platform) (d : Device) (p : Packet) : Decidable (Arrives u d p) :=
  inferInstanceAs (Decidable (_ ∧ _))

abbrev Handler := Platform → Site → Packet → Device → Outcome

/-- `DO_SERVER_CHANGE_FUNC_TABLE`. -/
def DO_SERVER_CHANGE_FUNC_TABLE : List (ℕ × Handler) :=
  [(FINDER_CMD_ACQUIRE_SERVER, fun u env _ d => onCmdAcquireServer env d (macAddr u d.nvram)),
    (FINDER_CMD_ACQUIRE_CONFIG, fun _ env _ d => onCmdAcquireConfig env d),
    (FINDER_CMD_AUTHENTICATE, onCmdAuthenticate),
    (FINDER_CMD_MODIFY_CONFIG, onCmdModifyConfig),
    (FINDER_CMD_ACQUIRE_DETAILS, fun _ env _ d => onCmdAcquireDetails env d),
    (FINDER_CMD_SET_SERVER_NAME, onCmdSetServerName),
    (FINDER_CMD_SET_USER_PASSWORD, onCmdSetUserPassword),
    (FINDER_CMD_SET_NETWORK, onCmdSetNetwork),
    (FINDER_CMD_REBOOT, fun _ _ _ d => onCmdReboot d)]

/-- The handler of a command, or what is done without one. -/
def handlerOf (command : ℕ) : Handler :=
  match DO_SERVER_CHANGE_FUNC_TABLE.find? fun entry => entry.1 = command with
  | some entry => entry.2
  | none => fun _ _ _ d => ⟨ERROR_UNSUPPORTED, [], [], d⟩

/-- A round of the loop of `main_flow`: the answer to a packet with its tags, or nothing. -/
def mainFlow (u : Platform) (env : Site) (p : Packet) (d : Device) : Option Outcome :=
  if Arrives u d p then
    let r := handlerOf p.cmd u env p d
    let result := (addTagIntegerToTagList · TAG_OPERATION_RESULT (UInt32.ofInt r.ret))
    some { r with tags := addTags [result] r.tags }
  else none

end EzpFirmware.Bcclient
