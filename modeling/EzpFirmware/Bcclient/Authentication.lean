import EzpFirmware.Bcclient.Router
import EzpFirmware.UserNvram.Protected

/-! # Unauthenticated packets

Each handler that changes something compares credentials first, except the one
that reboots. The comparison is made on arrays that hold what fits of a name and
a password, so that it decides for texts that fit.
-/
namespace EzpFirmware.Bcclient
open Lib UserNvram

/-! ## What a packet is authenticated by -/

/-- The whole name and password of `http_rule`. -/
def storedTexts (u : Unspecified) (nvram : Variables) : CStr × CStr :=
  let whole (type : CStr) : CStr :=
    (onMap (ezplibGetAttrVal u rules (fun _ _ val _ => (val.len, val)) (.ofString "http_rule") 0
      type 0) nvram).1.2
  (whole (.ofString "username"), whole (.ofString "passwd"))

/-- The name and password in a packet, decrypted: those in the tags for the old ones if it sets
new ones. -/
def credentials (env : Site) (p : Packet) (key : Key) : CStr × CStr :=
  if p.cmd = FINDER_CMD_SET_USER_PASSWORD then oldTexts env p key
  else senderTexts env.toEnv key p

/-- There is a live key for the packet, and the name and password in it are those of
`http_rule`. -/
def Authenticated (u : Platform) (env : Site) (p : Packet) (d : Device) : Prop :=
  ∃ k, liveKey env.tv p.srcMac d.keys = some k ∧
    credentials env p k = storedTexts u.toUnspecified d.nvram

def Effect.Reboots : Effect → Prop
  | .autoboot | .reboot => True
  | _ => False

def Effect.SetsClock : Effect → Prop
  | .date _ => True
  | _ => False

/-- No variable is changed, no reboot is run and no clock is set. -/
def NoEffect (d : Device) (r : Outcome) : Prop :=
  r.dev.nvram = d.nvram ∧ ∀ e ∈ r.effects, ¬ e.Reboots ∧ ¬ e.SetsClock

/-! ## What a packet asks for -/

/-- The commands whose handlers compare credentials before they change something. -/
def Checked (cmd : ℕ) : Prop :=
  cmd = FINDER_CMD_MODIFY_CONFIG ∨ cmd = FINDER_CMD_SET_SERVER_NAME ∨
    cmd = FINDER_CMD_SET_USER_PASSWORD ∨ cmd = FINDER_CMD_SET_NETWORK

instance (cmd : ℕ) : Decidable (Checked cmd) := inferInstanceAs (Decidable (_ ∨ _))

/-- The comparison of `OnCmdSetUserPassword`. -/
def MatchesOld (u : Platform) (env : Site) (p : Packet) (nvram : Variables) (k : Key) : Prop :=
  p.tag TAG_OLD_ADMIN_NAME BUF_LENGTH ≠ [] ∧ p.tag TAG_OLD_PASSWORD BUF_LENGTH ≠ [] ∧
    heldTexts env.toEnv (oldTexts env p k) = routerTexts u.toUnspecified
      MAXIMUM_USER_NAME_BUFFER_LENGTH MAXIMUM_PASSWORD_BUFFER_LENGTH nvram

/-- The comparison of a handler: on what its arrays hold. -/
def Matches (u : Platform) (env : Site) (p : Packet) (nvram : Variables) (k : Key) : Prop :=
  if p.cmd = FINDER_CMD_SET_USER_PASSWORD then MatchesOld u env p nvram k
  else heldTexts env.toEnv (senderTexts env.toEnv k p) =
    routerTexts u.toUnspecified BUF_LENGTH BUF_LENGTH nvram

/-- The new name and password are set: neither is empty. -/
def SetsPassword (env : Site) (p : Packet) (k : Key) : Prop :=
  (newTexts env p k).1 ≠ CStr.empty ∧ (newTexts env p k).2 ≠ CStr.empty

instance (env : Site) (p : Packet) (k : Key) : Decidable (SetsPassword env p k) :=
  inferInstanceAs (Decidable (_ ∧ _))

/-- The variables with the settings of a packet. -/
def settled (u : Platform) (env : Site) (p : Packet) (k : Key) (nvram : Variables) : Variables :=
  if p.cmd = FINDER_CMD_MODIFY_CONFIG then (onMap (modifySettings u env p) nvram).2
  else if p.cmd = FINDER_CMD_SET_SERVER_NAME then (onMap (nameSettings p) nvram).2
  else if p.cmd = FINDER_CMD_SET_NETWORK then (onMap (setIp u env p) nvram).2
  else if SetsPassword env p k then (onMap (passwordSettings u (newTexts env p k)) nvram).2
  else nvram

/-- The name or the password of `http_rule` does not fit the arrays of the handlers. -/
def LongCredentials (u : Unspecified) (nvram : Variables) : Prop :=
  MAXIMUM_USER_NAME_BUFFER_LENGTH ≤ (storedTexts u nvram).1.len ∨
    MAXIMUM_PASSWORD_BUFFER_LENGTH ≤ (storedTexts u nvram).2.len

/-- Where the handlers ask for the password: the packet does not reboot the router without one, and
credentials of `http_rule` that do not fit the arrays of the handlers are not matched by others, or
only for settings that are there already. -/
structure PasswordGuards (u : Platform) (env : Site) (p : Packet) (d : Device) : Prop where
  reboot : p.cmd = FINDER_CMD_REBOOT → Authenticated u env p d
  long : ∀ k, liveKey env.tv p.srcMac d.keys = some k → Checked p.cmd →
    LongCredentials u.toUnspecified d.nvram → Matches u env p d.nvram k →
      credentials env p k = storedTexts u.toUnspecified d.nvram ∨
        p.cmd ≠ FINDER_CMD_MODIFY_CONFIG ∧ settled u env p k d.nvram = d.nvram

/-! ## The comparison -/

section
variable {u : Unspecified} {nvram : Variables}

/-- An attribute in an array is as much of the attribute as fits. -/
theorem httpRule_take (type : CStr) (bsize : ℕ) :
    (onMap (httpRule u type bsize) nvram).1 =
      (onMap (ezplibGetAttrVal u rules (fun _ _ val _ => (val.len, val)) (.ofString "http_rule") 0
        type 0) nvram).1.2.take (bsize - 1) := by
  have hempty : CStr.empty = CStr.empty.take (bsize - 1) := Subtype.ext List.take_nil.symm
  rw [httpRule, onMap_bind, ezplibGetAttrVal, ezplibGetAttrVal]
  split
  case isTrue => exact hempty
  case isFalse =>
    rw [onMap_bind, onMap_bind]
    split
    case isTrue => exact hempty
    case isFalse =>
      dsimp only
      split
      · rfl
      · exact hempty

theorem routerTexts_take (userSize pwdSize : ℕ) :
    routerTexts u userSize pwdSize nvram =
      ((storedTexts u nvram).1.take (userSize - 1), (storedTexts u nvram).2.take (pwdSize - 1)) :=
  Prod.ext (httpRule_take _ userSize) (httpRule_take _ pwdSize)

theorem take_of_len_lt {s : CStr} {n : ℕ} (h : s.len < n) : s.take (n - 1) = s :=
  Subtype.ext (List.take_of_length_le (Nat.le_sub_one_of_lt h))

/-- Texts that fit the arrays are compared as a whole. -/
theorem eq_stored_of_held {env : Env} {texts : CStr × CStr} {userSize pwdSize : ℕ}
    (hshort : ¬ LongCredentials u nvram) (huser : MAXIMUM_USER_NAME_BUFFER_LENGTH ≤ userSize)
    (hpwd : MAXIMUM_PASSWORD_BUFFER_LENGTH ≤ pwdSize)
    (hheld : heldTexts env texts = routerTexts u userSize pwdSize nvram) :
    texts = storedTexts u nvram := by
  obtain ⟨hu, hp⟩ := not_or.mp hshort
  rw [not_le] at hu hp
  rw [routerTexts_take, take_of_len_lt (hu.trans_le huser), take_of_len_lt (hp.trans_le hpwd)]
    at hheld
  have hfst : held MAXIMUM_USER_NAME_BUFFER_LENGTH env.behindUser texts.1 =
    (storedTexts u nvram).1 := congrArg Prod.fst hheld
  have hsnd : held MAXIMUM_PASSWORD_BUFFER_LENGTH env.behindPwd texts.2 =
    (storedTexts u nvram).2 := congrArg Prod.snd hheld
  exact Prod.ext (eq_of_held hfst hu) (eq_of_held hsnd hp)

/-- The credentials of `http_rule` pass the comparison if they fit. -/
theorem held_eq_of_stored {env : Env} {texts : CStr × CStr} {userSize pwdSize : ℕ}
    (hshort : ¬ LongCredentials u nvram) (huser : MAXIMUM_USER_NAME_BUFFER_LENGTH ≤ userSize)
    (hpwd : MAXIMUM_PASSWORD_BUFFER_LENGTH ≤ pwdSize) (htexts : texts = storedTexts u nvram) :
    heldTexts env texts = routerTexts u userSize pwdSize nvram := by
  obtain ⟨hu, hp⟩ := not_or.mp hshort
  rw [not_le] at hu hp
  rw [routerTexts_take, take_of_len_lt (hu.trans_le huser), take_of_len_lt (hp.trans_le hpwd),
    heldTexts, htexts, held_short hu, held_short hp]

end

section
variable {u : Platform} {env : Site} {p : Packet} {d : Device}

theorem credentials_of_matches {k : Key} (hshort : ¬ LongCredentials u.toUnspecified d.nvram)
    (h : Matches u env p d.nvram k) :
    credentials env p k = storedTexts u.toUnspecified d.nvram := by
  unfold Matches at h
  unfold credentials
  split at h
  case isTrue hcmd =>
    rw [if_pos hcmd]
    exact eq_stored_of_held hshort le_rfl le_rfl h.2.2
  case isFalse hcmd =>
    rw [if_neg hcmd]
    exact eq_stored_of_held hshort (by decide) (by decide) h

/-! ## The handlers -/

/-- The effects of a packet that passes the comparison. -/
def effectsOf (env : Site) (p : Packet) (k : Key) : List Effect :=
  if p.cmd = FINDER_CMD_MODIFY_CONFIG then
    [.date (dateDigits env p), .commit] ++
      if (p.tag TAG_REBOOT 1).headD 0 ≠ 0 then [.autoboot] else []
  else if p.cmd = FINDER_CMD_SET_USER_PASSWORD ∧ ¬ SetsPassword env p k then []
  else [.commit]

variable (u env p d) in
theorem behindPassword_cases (settings : Api Unit) (effects : List Effect) :
    (∃ k, liveKey env.tv p.srcMac d.keys = some k ∧
      heldTexts env.toEnv (senderTexts env.toEnv k p) =
        routerTexts u.toUnspecified BUF_LENGTH BUF_LENGTH d.nvram ∧
      behindPassword u env p d settings effects = ⟨SUCCESS, [], effects,
        ⟨(onMap settings d.nvram).2, (getKeyByPacket env.tv p.srcMac d.keys).2⟩⟩) ∨
    (∀ k, liveKey env.tv p.srcMac d.keys = some k →
      heldTexts env.toEnv (senderTexts env.toEnv k p) ≠
        routerTexts u.toUnspecified BUF_LENGTH BUF_LENGTH d.nvram) ∧
      behindPassword u env p d settings effects = ⟨ERROR_AUTHENTICATION, [], [],
        { d with keys := (getKeyByPacket env.tv p.srcMac d.keys).2 }⟩ := by
  have hkeys := checkAdmistratorPassword_keys u.toUnspecified env.toEnv p d.nvram d.keys
  unfold behindPassword
  dsimp only
  rw [hkeys]
  split
  case isTrue hret =>
    exact .inr ⟨fun k hk hheld => hret (checkAdmistratorPassword_success.mpr ⟨k, hk, hheld⟩), rfl⟩
  case isFalse hret =>
    obtain ⟨k, hk, hheld⟩ := checkAdmistratorPassword_success.mp (not_not.mp hret)
    exact .inl ⟨k, hk, hheld, rfl⟩

variable (u env p d) in
theorem onCmdSetUserPassword_cases :
    (∃ k, liveKey env.tv p.srcMac d.keys = some k ∧ MatchesOld u env p d.nvram k ∧
      onCmdSetUserPassword u env p d =
        ⟨if SetsPassword env p k then SUCCESS else ERROR_BAD_PARAMETERS, [],
          if SetsPassword env p k then [.commit] else [],
          ⟨if SetsPassword env p k then
              (onMap (passwordSettings u (newTexts env p k)) d.nvram).2 else d.nvram,
            expireKeyByPacket p.srcMac (getKeyByPacket env.tv p.srcMac d.keys).2⟩⟩) ∨
    (∀ k, liveKey env.tv p.srcMac d.keys = some k → ¬ MatchesOld u env p d.nvram k) ∧
      ∃ ret, ret ≠ SUCCESS ∧ onCmdSetUserPassword u env p d = ⟨ret, [], [],
        { d with keys := (getKeyByPacket env.tv p.srcMac d.keys).2 }⟩ := by
  have hkey := getKeyByPacket_key env.tv p.srcMac d.keys
  unfold onCmdSetUserPassword liveKey
  generalize getKeyByPacket env.tv p.srcMac d.keys = r at hkey ⊢
  obtain ⟨_ | i, keys⟩ := r
  · refine .inr ⟨?_, ERROR_BAD_PARAMETERS, by simp [ERROR_BAD_PARAMETERS, SUCCESS], rfl⟩
    rintro k ⟨⟩
  · have hauth : ERROR_AUTHENTICATION ≠ SUCCESS := by simp [ERROR_AUTHENTICATION, SUCCESS]
    dsimp only at hkey ⊢
    rw [hkey i]
    split
    case isTrue htags =>
      refine .inr ⟨?_, _, hauth, rfl⟩
      rintro k - ⟨hname, hpwd, -⟩
      exact htags.elim hname hpwd
    case isFalse htags =>
      obtain ⟨hname, hpwd⟩ := not_or.mp htags
      split
      case isTrue hheld =>
        refine .inr ⟨?_, _, hauth, rfl⟩
        rintro k ⟨⟩ hmatches
        exact hheld hmatches.2.2
      case isFalse hheld =>
        refine .inl ⟨_, rfl, ⟨hname, hpwd, not_not.mp hheld⟩, ?_⟩
        by_cases hset : SetsPassword env p (d.keys i).key
        · rw [if_pos hset, if_pos hset, if_pos hset]
          exact if_pos hset
        · rw [if_neg hset, if_neg hset, if_neg hset]
          exact if_neg hset

/-- A key request or a mere check of the password sets nothing. -/
theorem onCmdAuthenticate_nvram : (onCmdAuthenticate u env p d).dev.nvram = d.nvram ∧
    (onCmdAuthenticate u env p d).effects = [] := by
  unfold onCmdAuthenticate
  split
  case isTrue =>
    dsimp only
    split <;> exact ⟨rfl, rfl⟩
  case isFalse => exact ⟨rfl, rfl⟩

/-- The handler of a command is the one in its row of the table. -/
theorem handlerOf_mem (command : ℕ) :
    (command, handlerOf command) ∈ DO_SERVER_CHANGE_FUNC_TABLE ∨
      (∀ entry ∈ DO_SERVER_CHANGE_FUNC_TABLE, entry.1 ≠ command) ∧
        handlerOf command = fun _ _ _ d => ⟨ERROR_UNSUPPORTED, [], [], d⟩ := by
  unfold handlerOf
  split
  case h_1 entry hfind =>
    have hcmd : entry.1 = command := by simpa using List.find?_some hfind
    have hmem := List.mem_of_find?_eq_some hfind
    rw [← hcmd]
    exact .inl hmem
  case h_2 hfind =>
    refine .inr ⟨fun entry hmem => ?_, rfl⟩
    simpa using List.find?_eq_none.mp hfind entry hmem

/-- The outcome makes the settings of a packet that passes its comparison, or none. -/
def Answers (u : Platform) (env : Site) (p : Packet) (d : Device) (r : Outcome) : Prop :=
  (∃ k, liveKey env.tv p.srcMac d.keys = some k ∧ Checked p.cmd ∧ Matches u env p d.nvram k ∧
    r.dev.nvram = settled u env p k d.nvram ∧ r.effects = effectsOf env p k) ∨
  (∀ k, liveKey env.tv p.srcMac d.keys = some k → Checked p.cmd → ¬ Matches u env p d.nvram k) ∧
    r.dev.nvram = d.nvram ∧ r.effects = []

theorem behindPassword_answers {settings : Api Unit} {effects : List Effect}
    (hchecked : Checked p.cmd) (hcmd : p.cmd ≠ FINDER_CMD_SET_USER_PASSWORD)
    (hset : ∀ k, settled u env p k d.nvram = (onMap settings d.nvram).2)
    (heff : ∀ k, effectsOf env p k = effects) :
    Answers u env p d (behindPassword u env p d settings effects) := by
  rcases behindPassword_cases u env p d settings effects with
    ⟨k, hk, hheld, heq⟩ | ⟨hnot, heq⟩ <;> rw [heq]
  · have hmatches : Matches u env p d.nvram k := by
      rw [Matches, if_neg hcmd]
      exact hheld
    exact .inl ⟨k, hk, hchecked, hmatches, (hset k).symm, (heff k).symm⟩
  · refine .inr ⟨fun k hk _ hmatches => hnot k hk ?_, rfl, rfl⟩
    rwa [Matches, if_neg hcmd] at hmatches

theorem onCmdSetUserPassword_answers (hcmd : p.cmd = FINDER_CMD_SET_USER_PASSWORD) :
    Answers u env p d (onCmdSetUserPassword u env p d) := by
  rcases onCmdSetUserPassword_cases u env p d with
    ⟨k, hk, hold, heq⟩ | ⟨hnot, ret, -, heq⟩ <;> rw [heq]
  · have hmatches : Matches u env p d.nvram k := by
      rw [Matches, if_pos hcmd]
      exact hold
    refine .inl ⟨k, hk, .inr (.inr (.inl hcmd)), hmatches, ?_, ?_⟩
    · simp [settled, hcmd, FINDER_CMD_MODIFY_CONFIG, FINDER_CMD_SET_SERVER_NAME,
        FINDER_CMD_SET_NETWORK, FINDER_CMD_SET_USER_PASSWORD]
    · by_cases hsets : SetsPassword env p k <;> simp [effectsOf, hcmd, hsets,
        FINDER_CMD_MODIFY_CONFIG, FINDER_CMD_SET_USER_PASSWORD]
  · refine .inr ⟨fun k hk _ hmatches => hnot k hk ?_, rfl, rfl⟩
    rwa [Matches, if_pos hcmd] at hmatches

/-- A handler that neither sets nor does anything answers. -/
theorem quiet_answers {r : Outcome} (hchecked : ¬ Checked p.cmd) (hnvram : r.dev.nvram = d.nvram)
    (heff : r.effects = []) : Answers u env p d r :=
  .inr ⟨fun _ _ h => absurd h hchecked, hnvram, heff⟩

/-- The commands that do more than tell something. -/
def effectiveCommands : List ℕ :=
  [FINDER_CMD_AUTHENTICATE, FINDER_CMD_MODIFY_CONFIG, FINDER_CMD_SET_SERVER_NAME,
    FINDER_CMD_SET_USER_PASSWORD, FINDER_CMD_SET_NETWORK, FINDER_CMD_REBOOT]

theorem exists_row {command : ℕ} (h : command ∈ effectiveCommands) :
    ∃ entry ∈ DO_SERVER_CHANGE_FUNC_TABLE, entry.1 = command := by
  simp only [effectiveCommands, List.mem_cons, List.not_mem_nil, or_false] at h
  rcases h with rfl | rfl | rfl | rfl | rfl | rfl <;> simp [DO_SERVER_CHANGE_FUNC_TABLE]

variable (u env p d) in
/-- What a handler can do: reboot at once, or answer. -/
theorem handlerOf_cases :
    p.cmd = FINDER_CMD_REBOOT ∧ handlerOf p.cmd u env p d = onCmdReboot d ∨
      p.cmd ≠ FINDER_CMD_REBOOT ∧ Answers u env p d (handlerOf p.cmd u env p d) := by
  rcases handlerOf_mem p.cmd with hmem | ⟨hnone, heq⟩
  · simp only [DO_SERVER_CHANGE_FUNC_TABLE, List.mem_cons, List.not_mem_nil, or_false,
      Prod.mk.injEq] at hmem
    -- One case for each row of the table.
    rcases hmem with ⟨hcmd, hh⟩ | ⟨hcmd, hh⟩ | ⟨hcmd, hh⟩ | ⟨hcmd, hh⟩ | ⟨hcmd, hh⟩ | ⟨hcmd, hh⟩ |
      ⟨hcmd, hh⟩ | ⟨hcmd, hh⟩ | ⟨hcmd, hh⟩ <;> rw [hh]
    case inr.inr.inr.inr.inr.inr.inr.inr => exact .inl ⟨hcmd, rfl⟩
    all_goals refine .inr ⟨by rw [hcmd]; decide, ?_⟩
    case inl | inr.inl | inr.inr.inr.inr.inl => exact quiet_answers (by rw [hcmd]; decide) rfl rfl
    case inr.inr.inl =>
      exact quiet_answers (by rw [hcmd]; decide) onCmdAuthenticate_nvram.1 onCmdAuthenticate_nvram.2
    case inr.inr.inr.inl =>
      exact behindPassword_answers (.inl hcmd) (by rw [hcmd]; decide) (fun _ => if_pos hcmd)
        fun _ => if_pos hcmd
    case inr.inr.inr.inr.inr.inl =>
      refine behindPassword_answers (.inr (.inl hcmd)) (by rw [hcmd]; decide) (fun k => ?_)
        fun k => ?_
      · simp [settled, hcmd, FINDER_CMD_MODIFY_CONFIG, FINDER_CMD_SET_SERVER_NAME]
      · simp [effectsOf, hcmd, FINDER_CMD_MODIFY_CONFIG, FINDER_CMD_SET_SERVER_NAME,
          FINDER_CMD_SET_USER_PASSWORD]
    case inr.inr.inr.inr.inr.inr.inl => exact onCmdSetUserPassword_answers hcmd
    case inr.inr.inr.inr.inr.inr.inr.inl =>
      refine behindPassword_answers (.inr (.inr (.inr hcmd))) (by rw [hcmd]; decide) (fun k => ?_)
        fun k => ?_
      · simp [settled, hcmd, FINDER_CMD_MODIFY_CONFIG, FINDER_CMD_SET_SERVER_NAME,
          FINDER_CMD_SET_NETWORK]
      · simp [effectsOf, hcmd, FINDER_CMD_MODIFY_CONFIG, FINDER_CMD_SET_NETWORK,
          FINDER_CMD_SET_USER_PASSWORD]
  · have hno (h : p.cmd ∈ effectiveCommands) : False := by
      obtain ⟨entry, hmem, hcmd⟩ := exists_row h
      exact hnone entry hmem hcmd
    rw [heq]
    refine .inr ⟨fun h => hno (by rw [h]; decide), quiet_answers (fun h => hno ?_) rfl rfl⟩
    rcases h with h | h | h | h <;> rw [h] <;> decide

/-! ## The law -/

/-- The settings of a packet have no effect exactly if they are there already and set no clock. -/
theorem noEffect_settled {k : Key} {r : Outcome}
    (hnvram : r.dev.nvram = settled u env p k d.nvram) (heff : r.effects = effectsOf env p k) :
    NoEffect d r ↔ p.cmd ≠ FINDER_CMD_MODIFY_CONFIG ∧ settled u env p k d.nvram = d.nvram := by
  unfold NoEffect
  rw [hnvram, heff, and_comm]
  refine and_congr_left' ⟨fun h hcmd => ?_, fun hcmd e he => ?_⟩
  · have hdate : Effect.date (dateDigits env p) ∈ effectsOf env p k := by simp [effectsOf, hcmd]
    exact (h _ hdate).2 trivial
  · rw [effectsOf, if_neg hcmd] at he
    split at he
    · cases he
    · obtain rfl : e = .commit := List.mem_singleton.mp he
      exact ⟨id, id⟩

/-- The two lookups of a live key find the same one. -/
theorem authenticated_iff {k : Key} (hk : liveKey env.tv p.srcMac d.keys = some k) :
    Authenticated u env p d ↔ credentials env p k = storedTexts u.toUnspecified d.nvram := by
  constructor
  · rintro ⟨k', hk', hcred⟩
    obtain rfl : k = k' := Option.some.inj (hk.symm.trans hk')
    exact hcred
  · exact fun hcred => ⟨k, hk, hcred⟩

theorem mainFlow_handler (harrives : Arrives u d p) :
    (∀ r, mainFlow u env p d = some r → ¬ Authenticated u env p d → NoEffect d r) ↔
      (¬ Authenticated u env p d → NoEffect d (handlerOf p.cmd u env p d)) := by
  rw [mainFlow, if_pos harrives]
  constructor
  · intro h
    have hanswer := h _ rfl
    exact hanswer
  · intro h r hr
    cases hr
    exact h

/-- An unauthenticated packet has no effect exactly where the handlers ask for the password. -/
theorem unauthenticated_no_effect_iff (u : Platform) (env : Site) (p : Packet) (d : Device)
    (harrives : Arrives u d p) :
    (∀ r, mainFlow u env p d = some r → ¬ Authenticated u env p d → NoEffect d r) ↔
      PasswordGuards u env p d := by
  rw [mainFlow_handler harrives]
  rcases handlerOf_cases u env p d with
    ⟨hcmd, heq⟩ | ⟨hcmd, ⟨k, hk, hchecked, hmatches, hnvram, heff⟩ | hquiet⟩
  · -- The handler that reboots has its effect for every packet.
    have heffect : ¬ NoEffect d (handlerOf p.cmd u env p d) := by
      rw [heq]
      exact fun h => (h.2 .reboot (by simp [onCmdReboot])).1 trivial
    constructor
    · refine fun h => ⟨fun _ => not_not.mp fun hauth => heffect (h hauth), ?_⟩
      intro k hk hchecked
      rw [hcmd] at hchecked
      exact absurd hchecked (by simp [Checked, FINDER_CMD_REBOOT, FINDER_CMD_MODIFY_CONFIG,
        FINDER_CMD_SET_SERVER_NAME, FINDER_CMD_SET_USER_PASSWORD, FINDER_CMD_SET_NETWORK])
    · exact fun h hauth => absurd (h.reboot hcmd) hauth
  · rw [authenticated_iff hk, noEffect_settled hnvram heff]
    constructor
    · refine fun h => ⟨fun hreboot => absurd hreboot hcmd, fun k' hk' _ _ _ => ?_⟩
      obtain rfl : k = k' := Option.some.inj (hk.symm.trans hk')
      exact or_iff_not_imp_left.mpr h
    · intro h hcred
      by_cases hlong : LongCredentials u.toUnspecified d.nvram
      · exact (h.long k hk hchecked hlong hmatches).resolve_left hcred
      · exact absurd (credentials_of_matches hlong hmatches) hcred
  · obtain ⟨hnot, hnvram, heff⟩ := hquiet
    refine iff_of_true (fun _ => ⟨hnvram, by simp [heff]⟩) ⟨fun h => absurd h hcmd, ?_⟩
    exact fun k hk hchecked _ hmatches => absurd hmatches (hnot k hk hchecked)

end

/-! ## A router -/

/-- A platform without surprises. -/
def cleanPlatform : Platform := { clean with int := 0 }

/-- A site at a time, with a key to give. -/
def siteAt (sec : ℤ) (fresh : Key) : Site where
  tv := ⟨sec, 0⟩
  fresh := fresh
  heap _ := []
  behindUser := []
  behindPwd := []
  router _ := ⟨0, .empty, .empty, .empty, .empty, .empty, .empty, .replicate 8 0, .empty,
    .replicate 8 0, .replicate 6 0, 8081, .replicate 4 0, .replicate 4 0, .empty⟩
  recvIpStr := .empty
  ip := .replicate 4 0
  subMask := .replicate 4 0
  time := .replicate COMMON_BUFFER_LENGTH 0
  maskStrToInt := id

/-- Variables with an address and the credentials `admin` and `secret`. -/
def routerVariables : Variables := fun name =>
  if name = .ofString "lan_hwaddr_rule_default" then some (.ofString "00:08:9b:01:02:03")
  else if name = .ofString "http_rule" then some (.ofString "http^1^0^admin^secret^80")
  else none

/-- A router without sessions. -/
def idleRouter : Device := ⟨routerVariables, keyTableInit fun _ => ⟨⟨0, 0⟩, 0, randomKey 0 0 0 0⟩⟩

/-- A packet for that router. -/
def packetFor (cmd : ℕ) (tags : List UInt8) : Packet :=
  let bytes := [0x00, 0x08, 0x9b, 0x01, 0x02, 0x03, 0, 0] ++ [0, 0] ++ leBytes 2 cmd ++
    [0, 0, 0, 0] ++ tags
  ⟨regionThen bytes fun _ => 0, bytes.length⟩

/-- A packet reboots the router without a key. -/
theorem reboot_unauthenticated :
    let env := siteAt 5000 (randomKey 1 2 3 4)
    let p := packetFor FINDER_CMD_REBOOT []
    Arrives cleanPlatform idleRouter p ∧ ¬ ∀ r, mainFlow cleanPlatform env p idleRouter = some r →
      ¬ Authenticated cleanPlatform env p idleRouter → NoEffect idleRouter r := by
  intro env p
  have harrives : Arrives cleanPlatform idleRouter p := by decide +kernel
  have hkey : liveKey env.tv p.srcMac idleRouter.keys = none := by decide +kernel
  have hauth : ¬ Authenticated cleanPlatform env p idleRouter := by
    rintro ⟨k, hk, -⟩
    rw [hkey] at hk
    cases hk
  have hhandler : handlerOf p.cmd cleanPlatform env p idleRouter = onCmdReboot idleRouter := by
    have hcmd : p.cmd = FINDER_CMD_REBOOT := by decide +kernel
    rw [hcmd]
    rfl
  refine ⟨harrives, fun h => ?_⟩
  have heffect : NoEffect idleRouter (handlerOf p.cmd cleanPlatform env p idleRouter) :=
    (mainFlow_handler harrives).mp h hauth
  rw [hhandler] at heffect
  exact (heffect.2 .reboot (by simp [onCmdReboot])).1 trivial

/-- A packet with a server name does nothing to a router without sessions. -/
theorem unauthenticated_no_effect_name :
    let env := siteAt 5000 (randomKey 1 2 3 4)
    let p := packetFor FINDER_CMD_SET_SERVER_NAME [1, 3, 0x6e, 0x61, 0x73]
    ∀ r, mainFlow cleanPlatform env p idleRouter = some r →
      ¬ Authenticated cleanPlatform env p idleRouter → NoEffect idleRouter r := by
  intro env p
  have hkey : liveKey env.tv p.srcMac idleRouter.keys = none := by decide +kernel
  refine (unauthenticated_no_effect_iff cleanPlatform env p idleRouter (by decide +kernel)).mpr
    ⟨fun hcmd => absurd hcmd (by decide +kernel), fun k hk => ?_⟩
  rw [hkey] at hk
  cases hk

end EzpFirmware.Bcclient
