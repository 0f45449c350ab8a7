import EzpFirmware.Lib.Fields
import EzpFirmware.Lib.Layout
import EzpFirmware.UserNvram.MapDevice
import Mathlib.Algebra.Ring.Nat
import Mathlib.Data.List.DropRight

/-! # The myQNAPcloud configuration

All fields live in one variable, separated by `^`. Every getter and setter reads
the variable through a command, splits it into a struct of fixed arrays and
copies; a setter prints the struct back and stores it through another command.
-/
namespace EzpFirmware.Qcloud
open Lib UserNvram

def VERSION_LEN : ℕ := 32

def DEVICE_ID_LEN : ℕ := 256

def NAME_LEN : ℕ := 32

def STATUS_FLAG_LEN : ℕ := 16

def MAX_QID_LEN : ℕ := 254

def MAX_APPKEY_LEN : ℕ := 256

def TMP_BUFF_LEN : ℕ := 1024

def ERR_NULL_POINTER : ℤ := -967

/-- The separator `^`. -/
def CARET : UInt8 := 0x5e

theorem CARET_ne : CARET ≠ 0 := by decide

/-- The single quote. -/
def QUOTE : UInt8 := 0x27

def TAB : UInt8 := 0x09

def CR : UInt8 := 0x0d

/-- The arrays of `struct qid_config_st`. -/
inductive Field where
  | version
  | appToken
  | refreshToken
  | authToken
  | tokenValidPeriod
  | lastTokenUpdate
  | qid
  | deviceId
  | deviceToken
  | deviceName
  | status
  | ddnsStatus
  deriving DecidableEq

/-- The arrays in the order of the struct and of the text. -/
def Field.all : List Field :=
  [.version, .appToken, .refreshToken, .authToken, .tokenValidPeriod, .lastTokenUpdate, .qid,
    .deviceId, .deviceToken, .deviceName, .status, .ddnsStatus]

/-- How many bytes an array has in front of the last one. -/
def Field.limit : Field → ℕ
  | version => VERSION_LEN
  | appToken | refreshToken | authToken | deviceToken => MAX_APPKEY_LEN
  | tokenValidPeriod | lastTokenUpdate | deviceName => NAME_LEN
  | qid => MAX_QID_LEN
  | deviceId => DEVICE_ID_LEN
  | status | ddnsStatus => STATUS_FLAG_LEN

/-- The bytes of some arrays. -/
def span (fs : List Field) : ℕ := (fs.map fun f => f.limit + 1).sum

/-- Where an array starts. -/
def Field.offset (f : Field) : ℕ := span (Field.all.takeWhile fun g => g ≠ f)

/-- `struct qid_config_st`: its bytes. -/
abbrev QidConfig := List UInt8

/-- The string in an array. -/
def QidConfig.get (m : QidConfig) (f : Field) : CStr := CStr.read (m.drop f.offset)

/-- `strncpy(p_qid_config->f, src, n)`. -/
def QidConfig.put (m : QidConfig) (f : Field) (src : CStr) (n : ℕ) : QidConfig :=
  m.take f.offset ++ strncpy (m.drop f.offset) src.stored n

/-- `puts_trim_cr` of the `nvram` command. -/
def putsTrimCr (str : CStr) : List UInt8 := (str.chop CR).val ++ [NL]

/-- What `nvram get myqnapcloud_id_rule` prints. -/
def nvramGetOutput (M : Variables) : List UInt8 :=
  match M (.ofString "myqnapcloud_id_rule") with
  | some value => putsTrimCr value
  | none => []

/-- `fgets` with a buffer of `n` bytes: what it reads. -/
def fgets (n : ℕ) (out : List UInt8) : List UInt8 :=
  (out.takeWhile (· ≠ NL) ++ if NL ∈ out then [NL] else []).take (n - 1)

/-- The bytes that `util_strip` takes from the end. -/
def strips (b : UInt8) : Bool := b == TAB || b == NL || b == CR

/-- `util_system_cmd` for a command with the given output: the string in the buffer. -/
def utilSystemCmd (out : List UInt8) (dataBuffLen : ℕ) : CStr :=
  CStr.read ((CStr.read (fgets dataBuffLen out)).val.rdropWhile strips)

/-- The calls of `parse_nvram_qcloud_config`, and the copy of the last array. -/
def parseNvramQcloudConfig : List Field → CStr → QidConfig → Except ℤ QidConfig
  | [], _, m => .ok m
  | [f], data, m => .ok (m.put f data f.limit)
  | f :: fs, data, m =>
    match CStr.cut CARET data with
    | none => .error (-1)
    | some (token, rest) => parseNvramQcloudConfig fs rest (m.put f token f.limit)

/-- `load_nvram_qcloud_config`. -/
def loadNvramQcloudConfig (M : Variables) : Except ℤ QidConfig :=
  parseNvramQcloudConfig Field.all (utilSystemCmd (nvramGetOutput M) TMP_BUFF_LEN)
    (List.replicate (span Field.all) 0)

/-- The command that stores, up to the text. -/
def saveCommand : CStr := .ofString "/usr/sbin/nvram fset myqnapcloud_id_rule='"

/-- The status of a shell that meets the end of a command inside quotes. -/
def SYNTAX_ERROR : ℤ := 512

/-- `system` for a command that stores: it ends in the quote that ends the text, or has lost it.
`other` is what the shell makes of a command with further quotes. -/
def system (other : CStr → Variables → ℤ × Variables) (cmd : CStr) (M : Variables) :
    ℤ × Variables :=
  match CStr.cut QUOTE (CStr.read (cmd.val.drop saveCommand.len)) with
  | none => (SYNTAX_ERROR, M)
  | some (text, rest) =>
    if rest = CStr.empty then
      (0, Function.update M (.ofString "myqnapcloud_id_rule") (kept (some text)))
    else other cmd M

section
variable (other : CStr → Variables → ℤ × Variables)

/-- `save_nvram_qcloud_config`. -/
def saveNvramQcloudConfig (m : QidConfig) (M : Variables) : ℤ × Variables :=
  let data := (CStr.join CARET CARET_ne (Field.all.map m.get)).take (TMP_BUFF_LEN - 1)
  let cmd := ((saveCommand.append data).append ⟨[QUOTE], by decide⟩).take (TMP_BUFF_LEN - 1)
  system other cmd M

/-- A setter that copies at most `n` bytes. -/
def qidSysSet (f : Field) (n : ℕ) (value : CStr) (M : Variables) : ℤ × Variables :=
  match loadNvramQcloudConfig M with
  | .error e => (e, M)
  | .ok m => saveNvramQcloudConfig other (m.put f value n) M

/-- A getter: what it returns, and the buffer. -/
def qidSysGet (f : Field) (M : Variables) (buf : List UInt8) (buffLen : ℕ) : ℤ × List UInt8 :=
  match loadNvramQcloudConfig M with
  | .error e => (e, buf)
  | .ok m => (0, strncpy buf (m.get f).stored buffLen)

/-- `qid_sys_set_qid`. -/
def qidSysSetQid := qidSysSet other .qid MAX_QID_LEN

/-- `qid_sys_set_auth_token`. -/
def qidSysSetAuthToken := qidSysSet other .authToken MAX_APPKEY_LEN

/-- `qid_sys_set_refresh_token`. -/
def qidSysSetRefreshToken := qidSysSet other .refreshToken MAX_APPKEY_LEN

/-- `qid_sys_set_app_token`. -/
def qidSysSetAppToken := qidSysSet other .appToken MAX_APPKEY_LEN

/-- `qid_sys_set_device_token`. -/
def qidSysSetDeviceToken := qidSysSet other .deviceToken MAX_APPKEY_LEN

/-- `qid_sys_set_last_update_token_time`. The length is that of a token. -/
def qidSysSetLastUpdateTokenTime := qidSysSet other .lastTokenUpdate MAX_APPKEY_LEN

/-- `qid_sys_set_token_valid_period`. -/
def qidSysSetTokenValidPeriod := qidSysSet other .tokenValidPeriod NAME_LEN

/-- `qid_sys_set_device_name`. -/
def qidSysSetDeviceName := qidSysSet other .deviceName NAME_LEN

/-- `qid_sys_set_qid_status`. -/
def qidSysSetQidStatus := qidSysSet other .status STATUS_FLAG_LEN

/-- `qid_sys_set_qid_device_id`. The length is that of a name. -/
def qidSysSetQidDeviceId := qidSysSet other .deviceId NAME_LEN

end

/-- `qid_sys_get_qcloud_ver`. -/
def qidSysGetQcloudVer := qidSysGet .version

/-- `qid_sys_get_qid`. -/
def qidSysGetQid := qidSysGet .qid

/-- `qid_sys_get_auth_token`. -/
def qidSysGetAuthToken := qidSysGet .authToken

/-- `qid_sys_get_refresh_token`. -/
def qidSysGetRefreshToken := qidSysGet .refreshToken

/-- `qid_sys_get_app_token`. -/
def qidSysGetAppToken := qidSysGet .appToken

/-- `qid_sys_get_device_token`. -/
def qidSysGetDeviceToken := qidSysGet .deviceToken

/-- `qid_sys_get_last_update_token_time`. -/
def qidSysGetLastUpdateTokenTime := qidSysGet .lastTokenUpdate

/-- `qid_sys_get_token_valid_period`: it asks `getcfg` for an entry of another file. -/
def qidSysGetTokenValidPeriod (getcfg : List UInt8) (_ : Variables) (buf : List UInt8)
    (buffLen : ℕ) : ℤ × List UInt8 :=
  if buffLen = 0 then (ERR_NULL_POINTER, buf)
  else
    let data := (utilSystemCmd getcfg buffLen).stored
    (0, data ++ List.replicate (buffLen - data.length) 0 ++ buf.drop buffLen)

/-- `qid_sys_get_device_name`. -/
def qidSysGetDeviceName := qidSysGet .deviceName

/-- `qid_sys_get_qid_status`. -/
def qidSysGetQidStatus := qidSysGet .status

/-- `qid_sys_get_qid_device_id`. -/
def qidSysGetQidDeviceId := qidSysGet .deviceId

/-- `qid_sys_get_ddns_status`. -/
def qidSysGetDdnsStatus := qidSysGet .ddnsStatus

/-! ## The struct of the configuration

The struct is its arrays one behind the other. What a copy to an array does, and
what the split of a text into the arrays gives.
-/

theorem Field.mem_all (f : Field) : f ∈ Field.all := by cases f <;> decide

theorem Field.nodup_all : Field.all.Nodup := by decide

/-- Arrays of the sizes of the struct. -/
def Sized (a : Field → List UInt8) : Prop := ∀ f, (a f).length = f.limit + 1

/-- The struct with the given arrays. -/
def structOf (a : Field → List UInt8) : QidConfig := layout Field.all a

theorem length_before {a : Field → List UInt8} (ha : Sized a) (f : Field) :
    (layout (before Field.all f) a).length = f.offset := by
  rw [length_layout]
  exact congrArg List.sum (List.map_congr_left fun g _ => ha g)

theorem drop_structOf {a : Field → List UInt8} (ha : Sized a) (f : Field) :
    (structOf a).drop f.offset = a f ++ layout (behind Field.all f) a := by
  rw [structOf, layout_split f.mem_all, List.drop_left' (length_before ha f)]

theorem take_structOf {a : Field → List UInt8} (ha : Sized a) (f : Field) :
    (structOf a).take f.offset = layout (before Field.all f) a := by
  rw [structOf, layout_split f.mem_all, List.take_left' (length_before ha f)]

/-- A terminated array is read alone. -/
theorem get_structOf {a : Field → List UInt8} (ha : Sized a) {f : Field} (h : (0 : UInt8) ∈ a f) :
    (structOf a).get f = CStr.read (a f) := by
  rw [QidConfig.get, drop_structOf ha, CStr.read_append_of_mem h]

/-- A copy that ends inside its array. -/
theorem put_structOf {a : Field → List UInt8} (ha : Sized a) (f : Field) (src : CStr) {n : ℕ}
    (hn : n ≤ f.limit + 1) : (structOf a).put f src n =
      structOf (Function.update a f (strncpy (a f) src.stored n)) := by
  rw [QidConfig.put, drop_structOf ha, take_structOf ha,
    strncpy_append_left _ _ (hn.trans (ha f).ge), structOf,
    layout_update Field.nodup_all f.mem_all]

theorem Sized.update {a : Field → List UInt8} (ha : Sized a) {f : Field} {x : List UInt8}
    (hx : x.length = f.limit + 1) : Sized (Function.update a f x) := by
  intro g
  by_cases hg : g = f
  · subst hg
    rwa [Function.update_self]
  · rw [Function.update_of_ne hg]
    exact ha g

/-- The array of a field after a copy of at most its limit. -/
def array (f : Field) (s : CStr) : List UInt8 :=
  strncpy (List.replicate (f.limit + 1) 0) s.stored f.limit

theorem length_array (f : Field) (s : CStr) : (array f s).length = f.limit + 1 := by
  rw [array, strncpy_length (by simp), List.length_replicate]

theorem array_eq (f : Field) (s : CStr) :
    array f s = s.val.take f.limit ++ List.replicate (f.limit + 1 - (s.val.take f.limit).length) 0 := by
  have hlen : (s.val.take f.limit).length ≤ f.limit := List.length_take_le _ _
  have hsplit : f.limit + 1 - (s.val.take f.limit).length =
      (f.limit - (s.val.take f.limit).length) + 1 := by omega
  rw [hsplit, List.replicate_add]
  simp [array, strncpy]

theorem zero_mem_array (f : Field) (s : CStr) : (0 : UInt8) ∈ array f s := by
  have hlen : (s.val.take f.limit).length ≤ f.limit := List.length_take_le _ _
  rw [array_eq, List.mem_append, List.mem_replicate]
  exact Or.inr ⟨by omega, rfl⟩

/-- The first bytes, as many as the array has. -/
theorem read_array (f : Field) (s : CStr) : CStr.read (array f s) = s.take f.limit := by
  have hlen : (s.val.take f.limit).length ≤ f.limit := List.length_take_le _ _
  obtain ⟨k, hk⟩ : ∃ k, f.limit + 1 - (s.val.take f.limit).length = k + 1 :=
    Nat.exists_eq_succ_of_ne_zero (by omega)
  have harr : array f s = (s.take f.limit).stored ++ List.replicate k 0 := by
    rw [array_eq, hk, List.replicate_succ]
    simp [CStr.stored, CStr.take]
  rw [harr, CStr.read_stored_append]

theorem read_array_of_le {f : Field} {s : CStr} (h : s.len ≤ f.limit) :
    CStr.read (array f s) = s := by
  rw [read_array]
  exact Subtype.ext (List.take_of_length_le h)

/-- The byte behind the limit is never written. -/
theorem strncpy_array (f : Field) (s v : CStr) :
    strncpy (array f s) v.stored f.limit = array f v := by
  have hlen : (s.val.take f.limit).length ≤ f.limit := List.length_take_le _ _
  have hdrop : (array f s).drop f.limit = [0] := by
    rw [array_eq, List.drop_append, List.drop_eq_nil_of_le hlen, List.drop_replicate,
      List.nil_append, show f.limit + 1 - (s.val.take f.limit).length -
        (f.limit - (s.val.take f.limit).length) = 1 by omega]
    rfl
  have hzero : (List.replicate (f.limit + 1) (0 : UInt8)).drop f.limit = [0] := by
    simp [List.drop_replicate]
  rw [strncpy, hdrop, array, strncpy, hzero]

/-- The struct of a record. -/
def record (r : Field → CStr) : QidConfig := structOf fun f => array f (r f)

theorem sized_array (r : Field → CStr) : Sized fun f => array f (r f) :=
  fun f => length_array f (r f)

theorem get_record (r : Field → CStr) (f : Field) : (record r).get f = (r f).take f.limit := by
  rw [record, get_structOf (sized_array r) (zero_mem_array f (r f)), read_array]

theorem get_record_of_le {r : Field → CStr} {f : Field} (h : (r f).len ≤ f.limit) :
    (record r).get f = r f := by
  rw [get_record]
  exact Subtype.ext (List.take_of_length_le h)

theorem put_record (r : Field → CStr) (f : Field) (v : CStr) :
    (record r).put f v f.limit = record (Function.update r f v) := by
  rw [record, put_structOf (sized_array r) f v (Nat.le_succ _), strncpy_array, record]
  congr 1
  funext g
  by_cases hg : g = f
  · subst hg
    simp
  · simp [hg]

/-- `calloc`. -/
theorem zeros_eq_record : List.replicate (span Field.all) 0 = record fun _ => CStr.empty := by
  decide +kernel

/-- A record with other strings in some arrays. -/
def override (fs : List Field) (tok r : Field → CStr) : Field → CStr :=
  fun f => if f ∈ fs then tok f else r f

theorem override_cons (f : Field) (fs : List Field) (tok r : Field → CStr) :
    override fs tok (Function.update r f (tok f)) = override (f :: fs) tok r := by
  funext g
  by_cases hg : g = f
  · subst hg
    simp [override]
  · simp [override, hg]

theorem override_single (f : Field) (tok r : Field → CStr) :
    Function.update r f (tok f) = override [f] tok r := by
  rw [← override_cons]
  funext g
  simp [override]

theorem override_all (tok r : Field → CStr) : override Field.all tok r = tok := by
  funext f
  simp [override, f.mem_all]

theorem override_congr {fs : List Field} {tok tok' : Field → CStr} (h : ∀ f ∈ fs, tok f = tok' f)
    (r : Field → CStr) : override fs tok r = override fs tok' r := by
  funext f
  by_cases hf : f ∈ fs
  · simp [override, hf, h f hf]
  · simp [override, hf]

/-- Joined strings go to their arrays, the last one with the separators that it holds. -/
theorem parse_join {fs : List Field} (hne : fs ≠ []) {tok : Field → CStr}
    (htok : ∀ f ∈ fs.dropLast, CARET ∉ (tok f).val) (r : Field → CStr) :
    parseNvramQcloudConfig fs (CStr.join CARET CARET_ne (fs.map tok)) (record r) =
      .ok (record (override fs tok r)) := by
  induction fs generalizing r with
  | nil => exact absurd rfl hne
  | cons f fs ih =>
    cases fs with
    | nil =>
      rw [← override_single, ← put_record]
      rfl
    | cons g gs =>
      rw [List.dropLast_cons_of_ne_nil (by simp)] at htok
      have hf : CARET ∉ (tok f).val := htok f List.mem_cons_self
      have hrest := ih (by simp) fun f' h => htok f' (List.mem_cons_of_mem f h)
      rw [List.map_cons, CStr.join_cons _ _ (by simp), parseNvramQcloudConfig]
      · simp only [CStr.cut_glue (by decide : CARET ≠ 0) hf, put_record, hrest, override_cons]
      · simp

/-- What is split was joined. -/
theorem join_of_parse {fs : List Field} (hne : fs ≠ []) (hn : fs.Nodup) {data : CStr}
    {r : Field → CStr} {m : QidConfig}
    (h : parseNvramQcloudConfig fs data (record r) = .ok m) :
    ∃ tok : Field → CStr, data = CStr.join CARET CARET_ne (fs.map tok) ∧
      (∀ f ∈ fs.dropLast, CARET ∉ (tok f).val) ∧ m = record (override fs tok r) := by
  induction fs generalizing data r with
  | nil => exact absurd rfl hne
  | cons f fs ih =>
    cases fs with
    | nil =>
      rw [parseNvramQcloudConfig, put_record] at h
      refine ⟨fun _ => data, rfl, by simp, ?_⟩
      rw [← override_single]
      exact (Except.ok.inj h).symm
    | cons g gs =>
      rw [parseNvramQcloudConfig] at h
      · cases hcut : CStr.cut CARET data with
        | none => simp [hcut] at h
        | some p =>
          rcases p with ⟨token, rest⟩
          simp only [hcut, put_record] at h
          rcases ih (by simp) (List.nodup_cons.mp hn).2 h with ⟨tok, hdata, hfree, hm⟩
          have hother : ∀ f' ∈ g :: gs, Function.update tok f token f' = tok f' := by
            intro f' hf'
            exact Function.update_of_ne (ne_of_mem_of_not_mem hf' (List.nodup_cons.mp hn).1) _ _
          refine ⟨Function.update tok f token, ?_, ?_, ?_⟩
          · rw [List.map_cons, CStr.join_cons _ _ (by simp), List.map_congr_left hother, ← hdata,
              Function.update_self]
            exact CStr.eq_glue_of_cut _ hcut
          · intro f' hf'
            rw [List.dropLast_cons_of_ne_nil (by simp), List.mem_cons] at hf'
            rcases hf' with rfl | hf'
            · rw [Function.update_self]
              exact CStr.cut_left_not_mem hcut
            · rw [hother f' (List.mem_of_mem_dropLast hf')]
              exact hfree f' hf'
          · rw [hm, ← override_cons f (g :: gs), Function.update_self, override_congr hother]
      · simp

/-- The only error of the split. -/
theorem parse_error {fs : List Field} {data : CStr} {m : QidConfig} {e : ℤ}
    (h : parseNvramQcloudConfig fs data m = .error e) : e = -1 := by
  induction fs, data, m using parseNvramQcloudConfig.induct with
  | case1 => simp [parseNvramQcloudConfig] at h
  | case2 => simp [parseNvramQcloudConfig] at h
  | case3 f fs data m hfs hcut =>
    rw [parseNvramQcloudConfig, hcut] at h
    · exact (Except.error.inj h).symm
    · exact hfs
  | case4 f fs data m hfs token rest hcut ih =>
    rw [parseNvramQcloudConfig, hcut] at h
    · exact ih h
    · exact hfs

end EzpFirmware.Qcloud
