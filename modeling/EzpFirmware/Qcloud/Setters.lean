import EzpFirmware.Qcloud.Stored

/-! # The setters and getters of the configuration

What every setter leaves in the struct, which setters keep the record, and when
a load and a save keep the text.
-/
namespace EzpFirmware.Qcloud
open Lib UserNvram

/-- The setters, by the field they are for. -/
def setterOf (other : CStr → Variables → ℤ × Variables) :
    Field → Option (CStr → Variables → ℤ × Variables)
  | .version | .ddnsStatus => none
  | .appToken => some (qidSysSetAppToken other)
  | .refreshToken => some (qidSysSetRefreshToken other)
  | .authToken => some (qidSysSetAuthToken other)
  | .tokenValidPeriod => some (qidSysSetTokenValidPeriod other)
  | .lastTokenUpdate => some (qidSysSetLastUpdateTokenTime other)
  | .qid => some (qidSysSetQid other)
  | .deviceId => some (qidSysSetQidDeviceId other)
  | .deviceToken => some (qidSysSetDeviceToken other)
  | .deviceName => some (qidSysSetDeviceName other)
  | .status => some (qidSysSetQidStatus other)

/-- The getters, by the field they are for. -/
def getterOf (getcfg : List UInt8) : Field → Variables → List UInt8 → ℕ → ℤ × List UInt8
  | .version => qidSysGetQcloudVer
  | .appToken => qidSysGetAppToken
  | .refreshToken => qidSysGetRefreshToken
  | .authToken => qidSysGetAuthToken
  | .tokenValidPeriod => qidSysGetTokenValidPeriod getcfg
  | .lastTokenUpdate => qidSysGetLastUpdateTokenTime
  | .qid => qidSysGetQid
  | .deviceId => qidSysGetQidDeviceId
  | .deviceToken => qidSysGetDeviceToken
  | .deviceName => qidSysGetDeviceName
  | .status => qidSysGetQidStatus
  | .ddnsStatus => qidSysGetDdnsStatus

/-- The length with which the setter of a field copies. -/
def Field.copyLen : Field → ℕ
  | .lastTokenUpdate => MAX_APPKEY_LEN
  | .deviceId => NAME_LEN
  | f => f.limit

theorem setterOf_eq {other : CStr → Variables → ℤ × Variables} {f : Field}
    {set : CStr → Variables → ℤ × Variables} (h : setterOf other f = some set) :
    set = qidSysSet other f f.copyLen := by
  cases f <;> cases h <;> rfl

theorem exists_setter (other : CStr → Variables → ℤ × Variables) {f : Field}
    (hv : f ≠ .version) (hd : f ≠ .ddnsStatus) :
    setterOf other f = some (qidSysSet other f f.copyLen) := by
  cases f <;> first | rfl | contradiction

theorem getterOf_eq (getcfg : List UInt8) {f : Field} (hf : f ≠ .tokenValidPeriod) :
    getterOf getcfg f = qidSysGet f := by
  cases f <;> first | rfl | contradiction

/-- A copy of at most `NAME_LEN` bytes over a string. -/
def overlay (v old : CStr) : CStr :=
  if v.len < NAME_LEN then v
  else (v.take NAME_LEN).append
    ⟨old.val.drop NAME_LEN, fun h => old.property (List.mem_of_mem_drop h)⟩

/-- The record after a setter. -/
def after (f : Field) (v : CStr) (r : Field → CStr) : Field → CStr :=
  match f with
  | .deviceId => Function.update r .deviceId (overlay v (r .deviceId))
  | .lastTokenUpdate => Function.update (Function.update r .lastTokenUpdate v) .qid CStr.empty
  | f => Function.update r f v

section arrays

theorem read_overlay {v old : CStr} (hold : old.len ≤ DEVICE_ID_LEN) :
    CStr.read (strncpy (array .deviceId old) v.stored NAME_LEN) = overlay v old := by
  unfold overlay
  split
  case isTrue h => rw [read_strncpy (by rwa [CStr.read_stored]), CStr.read_stored]
  case isFalse h =>
    have hlen : (v.val.take NAME_LEN).length = NAME_LEN := by
      change ¬ v.val.length < NAME_LEN at h
      rw [List.length_take]
      omega
    have hcopy : strncpy (array .deviceId old) v.stored NAME_LEN =
        v.val.take NAME_LEN ++ (array .deviceId old).drop NAME_LEN := by
      simp [strncpy, hlen]
    have harr : array .deviceId old =
        old.val ++ List.replicate (DEVICE_ID_LEN + 1 - old.val.length) 0 := by
      rw [array_eq, List.take_of_length_le (show old.val.length ≤ Field.deviceId.limit from hold)]
      rfl
    have hdrop : (array .deviceId old).drop NAME_LEN = old.val.drop NAME_LEN ++
        List.replicate (DEVICE_ID_LEN + 1 - old.val.length - (NAME_LEN - old.val.length)) 0 := by
      rw [harr, List.drop_append, List.drop_replicate]
    obtain ⟨k, hk⟩ : ∃ k,
        DEVICE_ID_LEN + 1 - old.val.length - (NAME_LEN - old.val.length) = k + 1 := by
      change old.val.length ≤ DEVICE_ID_LEN at hold
      rw [DEVICE_ID_LEN] at hold ⊢
      rw [NAME_LEN]
      exact Nat.exists_eq_succ_of_ne_zero (by omega)
    rw [hcopy, hdrop, hk, List.replicate_succ]
    have hstored : v.val.take NAME_LEN ++ (old.val.drop NAME_LEN ++ 0 :: List.replicate k 0) =
        ((v.take NAME_LEN).append ⟨old.val.drop NAME_LEN, fun h =>
          old.property (List.mem_of_mem_drop h)⟩).stored ++ List.replicate k 0 := by
      simp [CStr.stored, CStr.append, CStr.take]
    rw [hstored, CStr.read_stored_append]

/-- A copy over the whole array. -/
theorem strncpy_array_full (f : Field) (s : CStr) {v : CStr} (hv : v.len ≤ f.limit) :
    strncpy (array f s) v.stored (f.limit + 1) = array f v := by
  change v.val.length ≤ f.limit at hv
  rw [strncpy, CStr.read_stored, array_eq f v, List.take_of_length_le hv,
    List.take_of_length_le (by omega), List.drop_eq_nil_of_le (length_array f s).le, List.append_nil]

/-- A copy keeps the byte behind the limit. -/
theorem zero_mem_drop_array (f : Field) (s : CStr) {n : ℕ} (hn : n ≤ f.limit) :
    (0 : UInt8) ∈ (array f s).drop n := by
  have hlen : (s.val.take f.limit).length ≤ f.limit := List.length_take_le _ _
  have hend : (array f s).drop f.limit = [0] := by
    rw [array_eq, List.drop_append, List.drop_eq_nil_of_le hlen, List.drop_replicate,
      show f.limit + 1 - (s.val.take f.limit).length -
        (f.limit - (s.val.take f.limit).length) = 1 by omega]
    rfl
  have hmem : (0 : UInt8) ∈ ((array f s).drop n).drop (f.limit - n) := by
    rw [List.drop_drop, Nat.add_sub_cancel' hn, hend]
    exact List.mem_singleton_self 0
  exact List.mem_of_mem_drop hmem

/-- A copy as long as a token reaches over the update time into the user id. -/
theorem put_lastTokenUpdate (r : Field → CStr) {v : CStr} (hv : v.len ≤ NAME_LEN) :
    ∃ y, (0 :: y).length = Field.qid.limit + 1 ∧
      (record r).put .lastTokenUpdate v MAX_APPKEY_LEN =
        structOf (Function.update (Function.update (fun f => array f (r f)) .lastTokenUpdate
          (array .lastTokenUpdate v)) .qid (0 :: y)) := by
  have hsize : (array .lastTokenUpdate (r .lastTokenUpdate)).length = NAME_LEN + 1 :=
    length_array _ _
  have hqid : (array .qid (r .qid)).length = MAX_QID_LEN + 1 := length_array _ _
  have hfull : strncpy (array .lastTokenUpdate (r .lastTokenUpdate)) v.stored (NAME_LEN + 1) =
      array .lastTokenUpdate v := strncpy_array_full .lastTokenUpdate _ hv
  have hcopy : ∀ rest, strncpy (array .lastTokenUpdate (r .lastTokenUpdate) ++
      (array .qid (r .qid) ++ rest)) v.stored MAX_APPKEY_LEN =
      array .lastTokenUpdate v ++
        (0 :: (List.replicate 222 0 ++ (array .qid (r .qid)).drop 223) ++ rest) := by
    intro rest
    rw [strncpy_append_over _ (by rw [hsize]; decide)
      (by rw [CStr.read_stored, hsize]; exact hv.trans (Nat.le_succ _)), hsize, hfull]
    change _ ++ (List.replicate 223 0 ++ (array .qid (r .qid) ++ rest).drop 223) = _
    rw [List.drop_append_of_le_length (by rw [hqid]; decide),
      show List.replicate 223 (0 : UInt8) = 0 :: List.replicate 222 0 from rfl,
      List.cons_append, List.cons_append, List.append_assoc]
  refine ⟨List.replicate 222 0 ++ (array .qid (r .qid)).drop 223, ?_, ?_⟩
  · rw [List.length_cons, List.length_append, List.length_drop, hqid, List.length_replicate]
    rfl
  · generalize 0 :: (List.replicate 222 0 ++ (array .qid (r .qid)).drop 223) = y at hcopy ⊢
    rw [record, QidConfig.put, drop_structOf (sized_array r), take_structOf (sized_array r)]
    change _ ++ strncpy (array .lastTokenUpdate (r .lastTokenUpdate) ++
      (array .qid (r .qid) ++ layout (behind Field.all .qid) fun f => array f (r f))) _ _ = _
    rw [hcopy]
    simp [structOf, layout, before, behind, Field.all]

end arrays

/-- What a setter leaves in every array. -/
theorem get_put {r : Field → CStr} (hr : ∀ f, (r f).len ≤ f.limit) {f : Field} {v : CStr}
    (hv : v.len ≤ f.limit) (g : Field) :
    ((record r).put f v f.copyLen).get g = after f v r g := by
  have hplain : f.copyLen = f.limit → after f v r = Function.update r f v →
      ((record r).put f v f.copyLen).get g = after f v r g := by
    intro hlen hafter
    rw [hlen, put_record, hafter]
    apply get_record_of_le
    by_cases hg : g = f
    · subst hg
      rwa [Function.update_self]
    · rw [Function.update_of_ne hg]
      exact hr g
  cases f with
  | deviceId =>
    have hsize : (strncpy (array .deviceId (r .deviceId)) v.stored NAME_LEN).length =
        Field.deviceId.limit + 1 := by
      rw [strncpy_length (by rw [length_array]; decide), length_array]
    have hmem : (0 : UInt8) ∈ strncpy (array .deviceId (r .deviceId)) v.stored NAME_LEN :=
      List.mem_append_right _ (zero_mem_drop_array .deviceId _ (by decide))
    change ((record r).put .deviceId v NAME_LEN).get g = _
    rw [record, put_structOf (sized_array r) _ _ (by decide)]
    by_cases hg : g = .deviceId
    · subst hg
      rw [get_structOf ((sized_array r).update hsize) (by simpa using hmem), Function.update_self,
        read_overlay (hr _)]
      simp [after]
    · rw [get_structOf ((sized_array r).update hsize) (by simp [hg, zero_mem_array]),
        Function.update_of_ne hg, read_array_of_le (hr g)]
      simp [after, hg]
  | lastTokenUpdate =>
    change ((record r).put .lastTokenUpdate v MAX_APPKEY_LEN).get g = _
    obtain ⟨y, hy, hput⟩ := put_lastTokenUpdate r hv
    have hsized := ((sized_array r).update (length_array .lastTokenUpdate v)).update hy
    rw [hput]
    by_cases hg : g = .qid
    · subst hg
      rw [get_structOf hsized (by simp), Function.update_self]
      simp [after, CStr.read, CStr.empty]
    · by_cases hg' : g = .lastTokenUpdate
      · subst hg'
        rw [get_structOf hsized (by simp [zero_mem_array])]
        simp [after, read_array_of_le hv]
      · rw [get_structOf hsized (by simp [hg, hg', zero_mem_array])]
        simp [after, hg, hg', read_array_of_le (hr g)]
  | version => exact hplain rfl rfl
  | appToken => exact hplain rfl rfl
  | refreshToken => exact hplain rfl rfl
  | authToken => exact hplain rfl rfl
  | tokenValidPeriod => exact hplain rfl rfl
  | qid => exact hplain rfl rfl
  | deviceToken => exact hplain rfl rfl
  | deviceName => exact hplain rfl rfl
  | status => exact hplain rfl rfl
  | ddnsStatus => exact hplain rfl rfl

namespace Config

theorem loaded_plain (c : Config) (f : Field) : Plain (loaded c.value f) := by
  by_cases hf : f = .ddnsStatus
  · subst hf
    have h := c.plain .ddnsStatus
    rw [loaded, Function.update_self]
    exact ⟨fun hb => h.caret (mem_ddnsRead hb), fun hb => h.newline (mem_ddnsRead hb),
      fun hb => h.quote (mem_ddnsRead hb)⟩
  · rw [loaded_of_ne hf]
    exact c.plain f

theorem loaded_fits (c : Config) (f : Field) : (loaded c.value f).len ≤ f.limit := by
  by_cases hf : f = .ddnsStatus
  · subst hf
    rw [loaded, Function.update_self]
    exact ((List.rdropWhile_prefix _ _).length_le.trans (List.length_take_le' _ _)).trans
      (c.fits .ddnsStatus)
  · rw [loaded_of_ne hf]
    exact c.fits f

/-- The record that a setter prints. -/
def next (c : Config) (f : Field) (v : CStr) : Field → CStr := after f v (loaded c.value)

end Config

/-- The printed text keeps its quote. -/
def Savable (r : Field → CStr) : Prop := (quoted (textOf r)).len ≤ SAVE_ROOM

section runs
variable {c : Config} {M : Variables}

theorem textOf_put (c : Config) {f : Field} {v : CStr} (hv : v.len ≤ f.limit) :
    textOf ((record (loaded c.value)).put f v f.copyLen).get = textOf (c.next f v) :=
  congrArg textOf (funext fun g => get_put c.loaded_fits hv g)

theorem textOf_loaded (c : Config) :
    textOf (record (loaded c.value)).get = textOf (loaded c.value) :=
  congrArg textOf (funext fun g => get_record_of_le (c.loaded_fits g))

/-- A setter of a readable configuration saves. -/
theorem set_eq_save (hM : Stored c.value M) (hread : Readable c.value)
    (other : CStr → Variables → ℤ × Variables) (f : Field) (v : CStr) :
    qidSysSet other f f.copyLen v M =
      saveNvramQcloudConfig other ((record (loaded c.value)).put f v f.copyLen) M := by
  rw [qidSysSet, load_stored c.plain hM hread]

/-- A setter that succeeds had room. -/
theorem savable_of_set (hM : Stored c.value M) {other : CStr → Variables → ℤ × Variables}
    {f : Field} {v : CStr} (hv : v.len ≤ f.limit) {M' : Variables}
    (h : qidSysSet other f f.copyLen v M = (0, M')) :
    Readable c.value ∧ Savable (c.next f v) := by
  by_cases hread : Readable c.value
  · refine ⟨hread, ?_⟩
    by_contra hlong
    have hlen : SAVE_ROOM <
        (quoted (textOf ((record (loaded c.value)).put f v f.copyLen).get)).len := by
      rw [textOf_put c hv]
      exact not_le.mp hlong
    rw [set_eq_save hM hread, save_long other hlen, Prod.mk.injEq] at h
    exact absurd h.1 (by decide)
  · rw [qidSysSet, load_unreadable c.plain hM hread, Prod.mk.injEq] at h
    exact absurd h.1 (by decide)

/-- A setter of a plain record stores it. -/
theorem set_plain (hM : Stored c.value M) {f : Field} {v : CStr} (hv : v.len ≤ f.limit)
    (hread : Readable c.value) (hsave : Savable (c.next f v)) (hnext : ∀ g, Plain (c.next f v g))
    (other : CStr → Variables → ℤ × Variables) :
    ∃ M', qidSysSet other f f.copyLen v M = (0, M') ∧ Stored (c.next f v) M' := by
  refine ⟨Function.update M (.ofString "myqnapcloud_id_rule") (some (textOf (c.next f v))), ?_,
    Function.update_self _ _ _⟩
  rw [set_eq_save hM hread, save_plain, textOf_put c hv]
  · rw [textOf_put c hv]
    exact quote_not_mem_textOf hnext
  · rw [textOf_put c hv]
    exact hsave

/-- A flag that is loaded whole. -/
theorem ddnsRead_eq {r : Field → CStr}
    (hlen : (front r).length + (r .ddnsStatus).len ≤ TMP_BUFF_LEN - 1)
    (hd : ∀ b ∈ (r .ddnsStatus).val.getLast?, ¬ strips b) : ddnsRead r = r .ddnsStatus := by
  apply Subtype.ext
  change ((r .ddnsStatus).val.take (TMP_BUFF_LEN - 1 - (front r).length)).rdropWhile strips = _
  change (front r).length + (r .ddnsStatus).val.length ≤ TMP_BUFF_LEN - 1 at hlen
  rw [List.take_of_length_le (by omega), List.rdropWhile_eq_self_iff]
  exact fun hne => hd _ (List.getLast_mem_getLast? hne)

/-- The length of a text without quotes that can be saved. -/
theorem length_of_savable {r : Field → CStr} (hr : ∀ f, Plain (r f)) (h : Savable r) :
    (front r).length + (r .ddnsStatus).len ≤ SAVE_ROOM := by
  rw [Savable, quoted_of_not_mem (quote_not_mem_textOf hr), CStr.len, textOf_val,
    List.length_append] at h
  exact h

/-- A record that was saved is read without loss. -/
theorem load_savable {r : Field → CStr} (hr : ∀ f, Plain (r f)) (hM : Stored r M)
    (hsave : Savable r) (hd : ∀ b ∈ (r .ddnsStatus).val.getLast?, ¬ strips b) :
    loadNvramQcloudConfig M = .ok (record r) := by
  have hlen : (front r).length + (r .ddnsStatus).len ≤ TMP_BUFF_LEN - 1 :=
    (length_of_savable hr hsave).trans (by decide +kernel)
  have hread : Readable r := (Nat.le_add_right _ _).trans hlen
  have hloaded : loaded r = r := by
    rw [loaded, ddnsRead_eq hlen hd, Function.update_eq_self]
  rw [load_stored hr hM hread, hloaded]

end runs

end EzpFirmware.Qcloud
