import EzpFirmware.Qcloud.Setters

/-! # The configuration as a record

A setter that succeeds changes its own field alone, and a load followed by a save
changes nothing. Both need a condition: two setters copy with the length of
another field, one getter reads another file, and the last field loses blanks.
-/
namespace EzpFirmware.Qcloud
open Lib UserNvram

/-- After every success of the setter its getter reads the value, and the getters of all other
fields read what they read before, whatever the configuration file of the system holds and
whatever the shell makes of a command that carries quotes. -/
def KeepsRecord (f : Field) (v : CStr) (M : Variables) : Prop :=
  ∀ getcfg other set, setterOf other f = some set → ∀ M', set v M = (0, M') →
    (∀ buf n, v.len < n → ∃ out, getterOf getcfg f M' buf n = (0, out) ∧ CStr.read out = v) ∧
    ∀ g, g ≠ f → ∀ buf n, getterOf getcfg g M' buf n = getterOf getcfg g M buf n

/-- A load and a save that succeed leave the text. -/
def KeepsText (M : Variables) : Prop :=
  ∀ other m, loadNvramQcloudConfig M = .ok m → ∀ M', saveNvramQcloudConfig other m M = (0, M') →
    M' (.ofString "myqnapcloud_id_rule") = M (.ofString "myqnapcloud_id_rule")

/-- The value goes to its own array, and the getter looks there. -/
def Exact (c : Config) (v : CStr) : Field → Prop
  | .deviceId =>
    v.len < NAME_LEN ∨ v.val.drop NAME_LEN = (c.value .deviceId).val.drop NAME_LEN
  | .lastTokenUpdate => c.value .qid = CStr.empty
  | .tokenValidPeriod => False
  | _ => True

/-- A setter that can succeed is given a plain value that it copies exactly. -/
def Settable (c : Config) (f : Field) (v : CStr) : Prop :=
  Readable c.value → Savable (c.next f v) → Plain v ∧ Exact c v f

/-- A text that can be loaded and saved does not end in a blank. -/
def Reloadable (c : Config) : Prop :=
  Readable c.value → Savable (loaded c.value) →
    ∀ b ∈ (c.value .ddnsStatus).val.getLast?, b ≠ TAB ∧ b ≠ CR

section next
variable {c : Config} {f : Field} {v : CStr}

theorem overlay_plain {v old : CStr} (hv : Plain v) (hold : Plain old) : Plain (overlay v old) := by
  unfold overlay
  split
  · exact hv
  · constructor <;> intro h <;> rcases List.mem_append.mp h with h | h
    · exact hv.caret (List.mem_of_mem_take h)
    · exact hold.caret (List.mem_of_mem_drop h)
    · exact hv.newline (List.mem_of_mem_take h)
    · exact hold.newline (List.mem_of_mem_drop h)
    · exact hv.quote (List.mem_of_mem_take h)
    · exact hold.quote (List.mem_of_mem_drop h)

theorem update_plain {r : Field → CStr} (hr : ∀ f, Plain (r f)) (f : Field) {v : CStr}
    (hv : Plain v) (g : Field) : Plain (Function.update r f v g) := by
  by_cases hg : g = f
  · subst hg
    rwa [Function.update_self]
  · rw [Function.update_of_ne hg]
    exact hr g

theorem empty_plain : Plain CStr.empty :=
  ⟨List.not_mem_nil, List.not_mem_nil, List.not_mem_nil⟩

theorem after_plain {r : Field → CStr} (hr : ∀ f, Plain (r f)) (f : Field) {v : CStr}
    (hv : Plain v) (g : Field) : Plain (after f v r g) := by
  unfold after
  split
  · exact update_plain hr _ (overlay_plain hv (hr _)) g
  · exact update_plain (update_plain hr _ hv) _ empty_plain g
  · exact update_plain hr _ hv g

/-- The flag is not touched by any setter. -/
theorem next_ddnsStatus (c : Config) {f : Field} (hf : f ≠ .ddnsStatus) (v : CStr) :
    c.next f v .ddnsStatus = ddnsRead c.value := by
  cases f <;> first | contradiction | simp [Config.next, after, loaded]

theorem strip_last (c : Config) : ∀ b ∈ (ddnsRead c.value).val.getLast?, ¬ strips b := by
  intro b hb
  have hne : (ddnsRead c.value).val ≠ [] := by
    intro h
    simp [h] at hb
  have hlast : (ddnsRead c.value).val.getLast hne = b := by
    rw [List.getLast?_eq_some_getLast hne] at hb
    exact Option.some.inj hb
  rw [← hlast]
  exact List.rdropWhile_last_not strips _ hne

theorem overlay_len_le {v old : CStr} (hv : v.len ≤ DEVICE_ID_LEN) (hold : old.len ≤ DEVICE_ID_LEN) :
    (overlay v old).len ≤ DEVICE_ID_LEN := by
  unfold overlay
  split
  · exact hv
  · change (v.val.take NAME_LEN ++ old.val.drop NAME_LEN).length ≤ DEVICE_ID_LEN
    change old.val.length ≤ DEVICE_ID_LEN at hold
    rw [DEVICE_ID_LEN] at hold ⊢
    rw [List.length_append, List.length_take, List.length_drop, NAME_LEN]
    omega

theorem update_fits {r : Field → CStr} (hr : ∀ f, (r f).len ≤ f.limit) {f : Field} {v : CStr}
    (hv : v.len ≤ f.limit) (g : Field) : (Function.update r f v g).len ≤ g.limit := by
  by_cases hg : g = f
  · subst hg
    rwa [Function.update_self]
  · rw [Function.update_of_ne hg]
    exact hr g

theorem next_fits (c : Config) {f : Field} {v : CStr} (hv : v.len ≤ f.limit) (g : Field) :
    (c.next f v g).len ≤ g.limit := by
  have hr := c.loaded_fits
  unfold Config.next after
  split
  · exact update_fits hr (overlay_len_le hv (hr .deviceId)) g
  · exact update_fits (update_fits hr hv) (Nat.zero_le _) g
  · exact update_fits hr hv g

theorem next_plain (c : Config) (f : Field) {v : CStr} (hv : Plain v) (g : Field) :
    Plain (c.next f v g) :=
  after_plain c.loaded_plain f hv g

/-- An exact copy gives the value. -/
theorem next_self (h : Exact c v f) : c.next f v f = v := by
  cases f with
  | deviceId =>
    have hself : c.next .deviceId v .deviceId = overlay v (c.value .deviceId) := by
      simp [Config.next, after, loaded]
    rw [hself]
    unfold overlay
    split
    case isTrue => rfl
    case isFalse hlen =>
      apply Subtype.ext
      change v.val.take NAME_LEN ++ (c.value .deviceId).val.drop NAME_LEN = v.val
      rw [← h.resolve_left hlen, List.take_append_drop]
  | lastTokenUpdate => simp [Config.next, after]
  | tokenValidPeriod => exact h.elim
  | _ => simp [Config.next, after]

/-- And leaves all others. -/
theorem next_of_ne (h : Exact c v f) {g : Field} (hg : g ≠ f) :
    c.next f v g = loaded c.value g := by
  cases f with
  | lastTokenUpdate =>
    by_cases hq : g = .qid
    · subst hq
      have hqid : loaded c.value .qid = CStr.empty := (loaded_of_ne (by decide)).trans h
      simp [Config.next, after, hqid]
    · simp [Config.next, after, hg, hq]
  | tokenValidPeriod => exact h.elim
  | _ => simp [Config.next, after, hg]

end next

/-- What a getter makes of a loaded record. -/
theorem get_of_load {M : Variables} {r : Field → CStr} (h : loadNvramQcloudConfig M = .ok (record r))
    {g : Field} (hr : (r g).len ≤ g.limit) (buf : List UInt8) (n : ℕ) :
    qidSysGet g M buf n = (0, strncpy buf (r g).stored n) := by
  rw [qidSysGet, h]
  simp only [get_record_of_le hr]

section claim
variable {c : Config} {M : Variables} {f : Field} {v : CStr}

/-- What is loaded after a setter of a plain value. -/
theorem load_next {M' : Variables} (hd : f ≠ .ddnsStatus) (hsave : Savable (c.next f v))
    (hplain : Plain v) (hM' : Stored (c.next f v) M') :
    loadNvramQcloudConfig M' = .ok (record (c.next f v)) := by
  apply load_savable (next_plain c f hplain) hM' hsave
  rw [next_ddnsStatus c hd]
  exact strip_last c

theorem load_absent {M' : Variables} (h : M' (.ofString "myqnapcloud_id_rule") = none) :
    loadNvramQcloudConfig M' = .error (-1) := by
  have hout : nvramGetOutput M' = [] := by simp [nvramGetOutput, h]
  rw [loadNvramQcloudConfig, hout]
  decide +kernel

/-- A field that is read from what a setter has stored is plain. -/
theorem plain_of_load {M' : Variables} {t : CStr}
    (hM' : M' (.ofString "myqnapcloud_id_rule") = kept (some (quoted t))) (hd : f ≠ .ddnsStatus)
    {m : QidConfig} (h : loadNvramQcloudConfig M' = .ok m) : Plain (m.get f) := by
  by_cases he : quoted t = CStr.empty
  · rw [load_absent (by rw [hM', he]; rfl)] at h
    cases h
  · have hsome : M' (.ofString "myqnapcloud_id_rule") = some (quoted t) := by
      rw [hM']
      simp [kept, he]
    rcases load_inv h with ⟨tok, htext, hcaret, rfl⟩
    have hbytes : ∀ b ∈ ((record tok).get f).val, b ∈ (quoted t).val ∧ b ≠ NL := by
      intro b hb
      rw [get_record] at hb
      apply mem_loadText hsome
      rw [htext]
      exact CStr.mem_join_of_mem (List.mem_map_of_mem f.mem_all) (List.mem_of_mem_take hb)
    constructor
    · intro hb
      rw [get_record] at hb
      exact hcaret f hd (List.mem_of_mem_take hb)
    · exact fun hb => (hbytes NL hb).2 rfl
    · exact fun hb => quote_not_mem_quoted t (hbytes QUOTE hb).1

/-- A shell that drops every variable. -/
def dropsAll : CStr → Variables → ℤ × Variables := fun _ _ => (0, fun _ => none)

/-- A setter with room succeeds, and stores a value without quotes or loses all. -/
theorem set_dropsAll (hM : Stored c.value M) (hv : v.len ≤ f.limit) (hread : Readable c.value)
    (hsave : Savable (c.next f v)) : ∃ M', qidSysSet dropsAll f f.copyLen v M = (0, M') ∧
      (M' (.ofString "myqnapcloud_id_rule") = kept (some (quoted (textOf (c.next f v)))) ∨
        M' (.ofString "myqnapcloud_id_rule") = none) := by
  have hroom : (quoted (textOf ((record (loaded c.value)).put f v f.copyLen).get)).len ≤
      SAVE_ROOM := by
    rw [textOf_put c hv]
    exact hsave
  rw [set_eq_save hM hread]
  rcases save_fits dropsAll hroom M with h | ⟨cmd, h⟩
  · rw [textOf_put c hv] at h
    exact ⟨_, h, Or.inl (Function.update_self _ _ _)⟩
  · exact ⟨_, h, Or.inr rfl⟩

/-- The getter of the token valid period can read anything. -/
theorem exists_getcfg (v : CStr) (M : Variables) : ∃ getcfg buf n, v.len < n ∧
    CStr.read (qidSysGetTokenValidPeriod getcfg M buf n).2 ≠ v := by
  by_cases hv : v = CStr.empty
  · subst hv
    refine ⟨[0x78], [], 2, by decide, fun h => ?_⟩
    have hval := congrArg Subtype.val h
    revert hval
    change ¬ (CStr.read (qidSysGetTokenValidPeriod [0x78] (fun _ => none) [] 2).2).val = _
    decide +kernel
  · refine ⟨[], [], v.len + 1, Nat.lt_succ_self _, fun h => hv ?_⟩
    have hdata : utilSystemCmd [] (v.len + 1) = CStr.empty := by
      simp [utilSystemCmd, fgets, CStr.read, CStr.empty]
    rw [← h, qidSysGetTokenValidPeriod, if_neg (Nat.succ_ne_zero _), hdata]
    rfl

/-- A setter that keeps the record on success was given a plain value. -/
theorem plain_of_keepsRecord (hM : Stored c.value M) (hver : f ≠ .version)
    (hd : f ≠ .ddnsStatus) (hv : v.len ≤ f.limit) (h : KeepsRecord f v M)
    (hread : Readable c.value) (hsave : Savable (c.next f v)) :
    f ≠ .tokenValidPeriod ∧ Plain v := by
  rcases set_dropsAll hM hv hread hsave with ⟨M', hrun, hstored⟩
  have hset := exists_setter dropsAll hver hd
  have hf : f ≠ .tokenValidPeriod := by
    rintro rfl
    rcases exists_getcfg v M' with ⟨getcfg, buf, n, hn, hne⟩
    rcases (h getcfg dropsAll _ hset M' hrun).1 buf n hn with ⟨out, hout, hvalue⟩
    apply hne
    change CStr.read (getterOf getcfg .tokenValidPeriod M' buf n).2 = v
    rw [hout]
    exact hvalue
  refine ⟨hf, ?_⟩
  have hget := (h [] dropsAll _ hset M' hrun).1
  rw [getterOf_eq [] hf] at hget
  cases hload : loadNvramQcloudConfig M' with
  | error e =>
    rcases hget [] _ (Nat.lt_succ_self _) with ⟨out, hout, -⟩
    rw [qidSysGet, hload, load_error hload, Prod.mk.injEq] at hout
    exact absurd hout.1 (by decide)
  | ok m =>
    rcases hget [] (v.len + (m.get f).len + 1) (by omega) with ⟨out, hout, hvalue⟩
    simp only [qidSysGet, hload, Prod.mk.injEq] at hout
    have hfield : m.get f = v := by
      rw [← hvalue, ← hout.2, read_strncpy (by rw [CStr.read_stored]; omega), CStr.read_stored]
    rw [← hfield]
    rcases hstored with hstored | hnone
    · exact plain_of_load hstored hd hload
    · rw [load_absent hnone] at hload
      cases hload

/-- A copy that gives the value back has kept its end. -/
theorem drop_of_overlay_eq {v old : CStr} (hlen : ¬ v.len < NAME_LEN) (h : overlay v old = v) :
    v.val.drop NAME_LEN = old.val.drop NAME_LEN := by
  have htake : (v.val.take NAME_LEN).length = NAME_LEN := by
    change ¬ v.val.length < NAME_LEN at hlen
    rw [List.length_take]
    omega
  have hval : (v.val.take NAME_LEN ++ old.val.drop NAME_LEN).drop NAME_LEN =
      v.val.drop NAME_LEN := by
    rw [overlay, if_neg hlen] at h
    exact congrArg (fun s : CStr => s.val.drop NAME_LEN) h
  rw [List.drop_left' htake] at hval
  exact hval.symm

/-- And copied it exactly. -/
theorem exact_of_keepsRecord (hM : Stored c.value M) (hver : f ≠ .version)
    (hd : f ≠ .ddnsStatus) (hv : v.len ≤ f.limit) (h : KeepsRecord f v M)
    (hread : Readable c.value) (hsave : Savable (c.next f v)) : Plain v ∧ Exact c v f := by
  rcases plain_of_keepsRecord hM hver hd hv h hread hsave with ⟨hf, hplain⟩
  refine ⟨hplain, ?_⟩
  rcases set_plain hM hv hread hsave (next_plain c f hplain) dropsAll with ⟨M', hrun, hM'⟩
  have hload := load_next hd hsave hplain hM'
  rcases h [] dropsAll _ (exists_setter dropsAll hver hd) M' hrun with ⟨hself, hother⟩
  have hvalue : c.next f v f = v := by
    rcases hself [] (f.limit + 1) (Nat.lt_succ_of_le hv) with ⟨out, hout, hvalue⟩
    rw [getterOf_eq [] hf, get_of_load hload (next_fits c hv f), Prod.mk.injEq] at hout
    rw [← hout.2, read_strncpy (by
      rw [CStr.read_stored]
      exact Nat.lt_succ_of_le (next_fits c hv f)), CStr.read_stored] at hvalue
    exact hvalue
  cases f with
  | deviceId =>
    have hcopy : overlay v (c.value .deviceId) = v := by
      simpa [Config.next, after, loaded] using hvalue
    by_cases hlen : v.len < NAME_LEN
    · exact Or.inl hlen
    · exact Or.inr (drop_of_overlay_eq hlen hcopy)
  | lastTokenUpdate =>
    have hqid := hother .qid (by decide) [] (MAX_QID_LEN + 1)
    rw [getterOf_eq [] (by decide), get_of_load hload (next_fits c hv _),
      get_of_load (load_stored c.plain hM hread) (c.loaded_fits _), Prod.mk.injEq] at hqid
    have hempty : c.next .lastTokenUpdate v .qid = CStr.empty := by
      simp [Config.next, after]
    have hold : loaded c.value .qid = c.value .qid := loaded_of_ne (by decide)
    have hsame := congrArg CStr.read hqid.2
    rw [hempty, hold, read_strncpy (by decide), CStr.read_stored, read_strncpy (by
      rw [CStr.read_stored]
      exact Nat.lt_succ_of_le (c.fits .qid)), CStr.read_stored] at hsame
    exact hsame.symm
  | tokenValidPeriod => exact hf rfl
  | _ => trivial

/-- A plain value that is copied exactly keeps the record. -/
theorem keepsRecord_of_settable (hM : Stored c.value M) (hd : f ≠ .ddnsStatus)
    (hv : v.len ≤ f.limit) (h : Settable c f v) : KeepsRecord f v M := by
  intro getcfg other set hset M' hrun
  rw [setterOf_eq hset] at hrun
  rcases savable_of_set hM hv hrun with ⟨hread, hsave⟩
  rcases h hread hsave with ⟨hplain, hexact⟩
  rcases set_plain hM hv hread hsave (next_plain c f hplain) other with ⟨M'', hrun', hM''⟩
  obtain rfl : M' = M'' := congrArg Prod.snd (hrun.symm.trans hrun')
  have hload := load_next hd hsave hplain hM''
  constructor
  · intro buf n hn
    have hf : f ≠ .tokenValidPeriod := by
      rintro rfl
      exact hexact
    rw [getterOf_eq getcfg hf, get_of_load hload (next_fits c hv f), next_self hexact]
    exact ⟨_, rfl, by rw [read_strncpy (by rwa [CStr.read_stored]), CStr.read_stored]⟩
  · intro g hg buf n
    by_cases hg' : g = .tokenValidPeriod
    · subst hg'
      rfl
    · rw [getterOf_eq getcfg hg', get_of_load hload (next_fits c hv g),
        get_of_load (load_stored c.plain hM hread) (c.loaded_fits g), next_of_ne hexact hg]

theorem strips_iff (b : UInt8) : strips b = true ↔ b = TAB ∨ b = NL ∨ b = CR := by
  simp [strips, or_assoc]

/-- A configuration whose text is kept by a save loses nothing in a load. -/
theorem loaded_of_reloadable (h : Reloadable c) (hread : Readable c.value)
    (hsave : Savable (loaded c.value)) : loaded c.value = c.value := by
  have hfront : front (loaded c.value) = front c.value :=
    front_congr fun f hf => loaded_of_ne hf
  have hlen : (front c.value).length + (c.value .ddnsStatus).len ≤ TMP_BUFF_LEN - 1 := by
    have hroom := length_of_savable c.loaded_plain hsave
    have hfits : (c.value .ddnsStatus).len ≤ 16 := c.fits .ddnsStatus
    rw [hfront, saveRoom_eq] at hroom
    rw [TMP_BUFF_LEN]
    omega
  rw [loaded, ddnsRead_eq hlen, Function.update_eq_self]
  intro b hb
  rw [strips_iff, not_or, not_or]
  exact ⟨(h hread hsave b hb).1, fun hnl => (c.plain .ddnsStatus).newline
    (hnl ▸ List.mem_of_mem_getLast? hb), (h hread hsave b hb).2⟩

theorem keepsText_iff (hM : Stored c.value M) : KeepsText M ↔ Reloadable c := by
  have hquote : QUOTE ∉ (textOf (record (loaded c.value)).get).val := by
    rw [textOf_loaded c]
    exact quote_not_mem_textOf c.loaded_plain
  constructor
  · intro h hread hsave b hb
    have hrun := save_plain dropsAll hquote (by rw [textOf_loaded c]; exact hsave) M
    have hsame := h dropsAll _ (load_stored c.plain hM hread) _ hrun
    rw [Function.update_self, hM, textOf_loaded c, Option.some.injEq] at hsame
    have hrec := textOf_injective c.loaded_plain c.plain hsame
    have hddns : ddnsRead c.value = c.value .ddnsStatus := by
      rw [← congrFun hrec .ddnsStatus, loaded, Function.update_self]
    have hstrip := strip_last c b (by rwa [hddns])
    rw [strips_iff, not_or, not_or] at hstrip
    exact ⟨hstrip.1, hstrip.2.2⟩
  · intro h other m hload M' hrun
    by_cases hread : Readable c.value
    · rw [load_stored c.plain hM hread, Except.ok.injEq] at hload
      subst hload
      by_cases hsave : Savable (loaded c.value)
      · rw [save_plain other hquote (by rw [textOf_loaded c]; exact hsave), textOf_loaded c,
          loaded_of_reloadable h hread hsave, Prod.mk.injEq] at hrun
        rw [← hrun.2, Function.update_self, hM]
      · rw [save_long other (by rw [textOf_loaded c]; exact not_le.mp hsave),
          Prod.mk.injEq] at hrun
        exact absurd hrun.1 (by decide)
    · rw [load_unreadable c.plain hM hread] at hload
      cases hload

/-- A setter and its getter treat the configuration as a record exactly if the setter must fail
or copies a plain value exactly, and the last field does not end in a blank. -/
theorem keepsConfig_iff (hM : Stored c.value M) (hver : f ≠ .version) (hd : f ≠ .ddnsStatus)
    (hv : v.len ≤ f.limit) :
    KeepsRecord f v M ∧ KeepsText M ↔ Settable c f v ∧ Reloadable c := by
  rw [keepsText_iff hM]
  constructor
  · intro h
    exact ⟨exact_of_keepsRecord hM hver hd hv h.1, h.2⟩
  · intro h
    exact ⟨keepsRecord_of_settable hM hd hv h.1, h.2⟩

end claim

/-- A configuration with the user id `me` and `1` in all other fields. -/
def exampleConfig : Config where
  value f := if f = .qid then .ofString "me" else .ofString "1"
  plain f := by
    by_cases hf : f = .qid
    · subst hf
      exact ⟨by decide, by decide, by decide⟩
    · rw [if_neg hf]
      exact ⟨by decide, by decide, by decide⟩
  fits f := by cases f <;> decide

/-- A store that holds it. -/
def exampleStore : Variables := fun name =>
  if name = .ofString "myqnapcloud_id_rule" then some (textOf exampleConfig.value) else none

theorem exampleStore_stored : Stored exampleConfig.value exampleStore := if_pos rfl

/-- The status is set and read. -/
theorem keepsConfig_status :
    KeepsRecord .status (.ofString "2") exampleStore ∧ KeepsText exampleStore := by
  apply (keepsConfig_iff exampleStore_stored (by decide) (by decide) (by decide)).mpr
  refine ⟨fun _ _ => ⟨⟨by decide, by decide, by decide⟩, trivial⟩, fun _ _ b hb => ?_⟩
  obtain rfl : b = 0x31 := by
    have hlast : (exampleConfig.value .ddnsStatus).val.getLast? = some 0x31 := by decide
    rw [hlast] at hb
    exact (Option.some.inj hb).symm
  decide

/-- The update time clears the user id. -/
theorem keepsConfig_fails : ¬ ∀ (c : Config) (M : Variables) (f : Field) (v : CStr),
    Stored c.value M → f ≠ .version → f ≠ .ddnsStatus → v.len ≤ f.limit →
      KeepsRecord f v M ∧ KeepsText M := by
  intro h
  have hkeeps := (h exampleConfig exampleStore .lastTokenUpdate (.ofString "5")
    exampleStore_stored (by decide) (by decide) (by decide)).1
  have hread : Readable exampleConfig.value := by
    unfold Readable
    decide +kernel
  have hsave : Savable (exampleConfig.next .lastTokenUpdate (.ofString "5")) := by
    unfold Savable
    decide +kernel
  have hplain : Plain (.ofString "5") := ⟨by decide, by decide, by decide⟩
  rcases set_plain exampleStore_stored (by decide) hread hsave (next_plain _ _ hplain) dropsAll
    with ⟨M', hrun, hM'⟩
  have hqid := (hkeeps [] dropsAll _ rfl M' hrun).2 .qid (by decide) [] 4
  rw [getterOf_eq [] (by decide), get_of_load (load_next (by decide) hsave hplain hM')
    (next_fits _ (by decide) _), get_of_load (load_stored exampleConfig.plain exampleStore_stored
    hread) (exampleConfig.loaded_fits _), Prod.mk.injEq] at hqid
  revert hqid
  decide +kernel

end EzpFirmware.Qcloud
