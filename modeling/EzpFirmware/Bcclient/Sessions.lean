import EzpFirmware.Bcclient.Authentication
import EzpFirmware.Bcclient.TagCodec
import EzpFirmware.UserNvram.Rules

/-! # Sessions of two clients

Valid packets carry the address of the router, and the key table looks keys up
by that address. So there is one session for everybody: it lasts until any
client asks for a key or changes the password.
-/
namespace EzpFirmware.Bcclient
open Lib UserNvram

/-! ## The session in the key table -/

/-- The first entry of an id has a key, and was refreshed at `T` or later. -/
def Session (t : KeyList) (m : UInt64) (k : Key) (T : ℤ) : Prop :=
  ∃ i, ((t i).macHash = m ∧ ∀ j < i, (t j).macHash ≠ m) ∧ (t i).key = k ∧
    T ≤ (t i).refreshTime.tvSec

section
variable {t : KeyList} {m : UInt64} {k : Key} {T : ℤ} {tv : Timeval}

/-- The first entry of an id, rewritten for the id, is a session. -/
theorem session_update {i : Fin MAX_CONCURRENT_CLIENTS}
    (hbefore : ∀ j < i, (t j).macHash ≠ m) {e : KeyType} (hm : e.macHash = m) (hk : e.key = k)
    (hT : T ≤ e.refreshTime.tvSec) : Session (Function.update t i e) m k T := by
  refine ⟨i, ⟨by rw [Function.update_self, hm], fun j hj => ?_⟩, by rw [Function.update_self, hk],
    by rw [Function.update_self]; exact hT⟩
  rw [Function.update_of_ne hj.ne]
  exact hbefore j hj

/-- A lookup at a later time keeps the session. -/
theorem Session.getKey (h : Session t m k T) (hT : T ≤ tv.tvSec) :
    Session (getKeyByPacket tv m t).2 m k T := by
  obtain ⟨i, ⟨hm, hbefore⟩, hk, hTi⟩ := h
  rcases getKeyByPacket_cases tv m t with ⟨j, -, hj, heq⟩ | ⟨-, heq⟩ <;> rw [heq]
  · rcases eq_or_ne i j with rfl | hij
    · exact session_update hbefore hm hk hT
    · dsimp only
      refine ⟨i, ⟨?_, fun l hl => ?_⟩, ?_⟩
      · rw [Function.update_of_ne hij, hm]
      · rw [update_macHash (by rfl)]
        exact hbefore l hl
      · rw [Function.update_of_ne hij]
        exact ⟨hk, hTi⟩
  · exact ⟨i, ⟨hm, hbefore⟩, hk, hTi⟩

/-- A lookup in time finds the key of the session and refreshes it. -/
theorem Session.live (h : Session t m k T) (hage : tv.tvSec ≤ T + KEY_TABLE_AGING_SEC) :
    liveKey tv m t = some k ∧ Session (getKeyByPacket tv m t).2 m k tv.tvSec := by
  obtain ⟨i, ⟨hm, hbefore⟩, hk, hTi⟩ := h
  have halive : ¬ (t i).Aged tv := by
    rw [KeyType.Aged]
    omega
  have hfirst : firstEntry (fun i => ¬ (t i).Aged tv ∧ (t i).macHash = m) = some i :=
    firstEntry_iff.mpr ⟨⟨halive, hm⟩, fun j hj hboth => hbefore j hj hboth.2⟩
  have hget : getKeyByPacket tv m t =
      (some i, Function.update t i { t i with refreshTime := tv }) := by
    rw [getKeyByPacket, hfirst]
  constructor
  · rw [liveKey, hget, Option.map_some, hk]
  · rw [hget]
    exact session_update hbefore hm hk le_rfl

/-- A key request that is granted begins a session. -/
theorem session_granted {fresh : Key} {i : Fin MAX_CONCURRENT_CLIENTS}
    (hi : (getNewKeyByPacket tv fresh m t).1 = some i) :
    Session (getNewKeyByPacket tv fresh m t).2 m
      ((getNewKeyByPacket tv fresh m t).2 i).key tv.tvSec := by
  unfold getNewKeyByPacket at hi ⊢
  split at hi
  case h_1 j hj =>
    obtain ⟨hm, hbefore⟩ := firstEntry_iff.mp hj
    obtain rfl : j = i := Option.some.inj hi
    exact session_update hbefore hm (by dsimp only; rw [Function.update_self]) le_rfl
  case h_2 hnone =>
    split at hi
    case h_1 j hj =>
      obtain rfl : j = i := Option.some.inj hi
      exact session_update (fun l _ => firstEntry_none hnone l) rfl
        (by dsimp only; rw [Function.update_self]) le_rfl
    case h_2 => cases hi

end

/-! ## Runs of packets -/

/-- A packet that a client sends, and what the machine gives meanwhile. -/
structure Message (C : Type) where
  sender : C
  env : Site
  packet : Packet

def Message.time {C : Type} (m : Message C) : ℤ := m.env.tv.tvSec

/-- The bytes of a key in a tag. -/
def keyBytes (k : Key) : List UInt8 := k.toList.flatMap fun value => leBytes 4 value.toNat

/-- The answer gives a key. -/
def Outcome.GivesKey (r : Outcome) (k : Key) : Prop :=
  r.ret = SUCCESS ∧ ∃ t ∈ r.tags, t.tag = UInt8.ofNat TAG_TEMP_KEY ∧ t.data = keyBytes k

/-- The packet looks the key up: it is a command with credentials. -/
def UsesKey (p : Packet) : Prop := Checked p.cmd ∨ p.cmd = FINDER_CMD_AUTHENTICATE

instance (p : Packet) : Decidable (UsesKey p) := inferInstanceAs (Decidable (_ ∨ _))

/-- The packet expires the key: it asks for one, or it sets a password and passes the
comparison. -/
def EndsSession (u : Platform) (env : Site) (p : Packet) (d : Device) : Prop :=
  p.cmd = FINDER_CMD_AUTHENTICATE ∧ p.AsksKey ∨
    p.cmd = FINDER_CMD_SET_USER_PASSWORD ∧
      ∃ k, liveKey env.tv p.srcMac d.keys = some k ∧ MatchesOld u env p d.nvram k

/-- What every client may send, at a time and to a device. -/
abbrev Permission (C : Type) := C → ℤ → Device → Message C → Prop

/-- From the key that a client got last: the device, when the key was last used, and the time.
The client itself does not expire its key. -/
inductive Handshaken {C : Type} (u : Platform) (Allowed : Permission C) (c : C) (k : Key) :
    Device → ℤ → ℤ → Prop where
  | granted {d : Device} (m : Message C) (hsender : m.sender = c)
    (hcmd : m.packet.cmd = FINDER_CMD_AUTHENTICATE) (hasks : m.packet.AsksKey) {r : Outcome}
    (hanswer : mainFlow u m.env m.packet d = some r) (hkey : r.GivesKey k) :
    Handshaken u Allowed c k r.dev m.time m.time
  | message {d : Device} {used now : ℤ} (h : Handshaken u Allowed c k d used now) (m : Message C)
    (hallowed : Allowed c now d m) (hown : m.sender = c → ¬ EndsSession u m.env m.packet d)
    {r : Outcome} (hanswer : mainFlow u m.env m.packet d = some r) :
    Handshaken u Allowed c k r.dev
      (if UsesKey m.packet ∧ m.time ≤ used + KEY_TABLE_AGING_SEC then m.time else used) m.time

/-- A command that carries the right credentials, encrypted with a key; a new password too, if it
is to set one. -/
structure RightCredentials (u : Platform) (env : Site) (p : Packet) (nvram : Variables)
    (k : Key) : Prop where
  texts : credentials env p k = storedTexts u.toUnspecified nvram
  given : p.cmd = FINDER_CMD_SET_USER_PASSWORD → p.tag TAG_OLD_ADMIN_NAME BUF_LENGTH ≠ [] ∧
    p.tag TAG_OLD_PASSWORD BUF_LENGTH ≠ [] ∧ SetsPassword env p k

/-- In every run of what the clients may send, a privileged command with the right credentials
under the key that its client got last is accepted, if the key has not aged. -/
def SessionsApart (C : Type) (u : Platform) (Allowed : Permission C) : Prop :=
  ∀ (c : C) (k : Key) (d : Device) (used now : ℤ) (m : Message C) (r : Outcome),
    Handshaken u Allowed c k d used now → m.sender = c → Allowed c now d m →
      mainFlow u m.env m.packet d = some r → m.time ≤ used + KEY_TABLE_AGING_SEC →
        Checked m.packet.cmd → RightCredentials u m.env m.packet d.nvram k → r.ret = SUCCESS

/-- Nobody else expires the key, the credentials of `http_rule` fit the arrays of the handlers, and
the clock does not go back. -/
def Considerate {C : Type} (u : Platform) : Permission C := fun c now d m =>
  (m.sender ≠ c → ¬ EndsSession u m.env m.packet d) ∧
    ¬ LongCredentials u.toUnspecified d.nvram ∧ now ≤ m.time

/-! ## What a packet does to the session -/

section
variable {u : Platform} {env : Site} {p : Packet} {d : Device}

/-- The address of the router as the key table has it. -/
def routerId (u : Platform) (nvram : Variables) : UInt64 :=
  UInt64.ofNat (ofLe (macAddr u nvram))

theorem srcMac_eq (h : Arrives u d p) (hcmd : p.cmd ≠ FINDER_CMD_ACQUIRE_SERVER) :
    p.srcMac = routerId u d.nvram := by
  rw [Packet.srcMac, h.2.2.resolve_left hcmd, routerId]

/-- The variables but the address of the router. -/
def NotAddress (name : CStr) : Prop := name ≠ .ofString "lan_hwaddr_rule_default"

instance (name : CStr) : Decidable (NotAddress name) := inferInstanceAs (Decidable (_ ≠ _))

theorem confined_setIp : UserNvram.Confined NotAddress (setIp u env p) :=
  (confined_set (by decide) _).bind fun _ =>
    (confined_replaceAttr u.toUnspecified (by decide) rules 0 _ _).bind fun _ => trivial

theorem confined_setMask : UserNvram.Confined NotAddress (setMask u env p) :=
  (confined_set (by decide) _).bind fun _ =>
    (confined_replaceAttr u.toUnspecified (by decide) rules 0 _ _).bind fun _ => trivial

theorem confined_passwordSettings (texts : CStr × CStr) :
    UserNvram.Confined NotAddress (passwordSettings u texts) :=
  (confined_replaceAttr u.toUnspecified (by decide) rules 0 _ _).bind fun _ =>
    (confined_replaceAttr u.toUnspecified (by decide) rules 0 _ _).bind fun _ => trivial

theorem confined_nameSettings : UserNvram.Confined NotAddress (nameSettings p) :=
  (confined_set (by decide) _).bind fun _ => trivial

/-- No handler changes the address of the router. -/
theorem handlerOf_routerId :
    routerId u (handlerOf p.cmd u env p d).dev.nvram = routerId u d.nvram := by
  have hself (nvram : Variables) (h : nvram (.ofString "lan_hwaddr_rule_default") =
      d.nvram (.ofString "lan_hwaddr_rule_default")) : routerId u nvram = routerId u d.nvram := by
    simp only [routerId, macAddr, text, h]
  have hconf {settings : Api Unit} (h : UserNvram.Confined NotAddress settings) :
      routerId u (onMap settings d.nvram).2 = routerId u d.nvram :=
    hself _ (h.onMap (not_not.mpr rfl) d.nvram)
  rcases handlerOf_cases u env p d with
    ⟨-, heq⟩ | ⟨-, ⟨k, -, -, -, hnvram, -⟩ | ⟨-, hnvram, -⟩⟩
  · rw [heq]
    rfl
  · rw [hnvram, settled]
    split_ifs
    · exact hconf (confined_setIp.bind fun _ => confined_setMask)
    · exact hconf confined_nameSettings
    · exact hconf confined_setIp
    · exact hconf (confined_passwordSettings _)
    · rfl
  · rw [hnvram]

theorem behindPassword_keys (settings : Api Unit) (effects : List Effect) :
    (behindPassword u env p d settings effects).dev.keys =
      (getKeyByPacket env.tv p.srcMac d.keys).2 := by
  rcases behindPassword_cases u env p d settings effects with
    ⟨k, -, -, heq⟩ | ⟨-, heq⟩ <;> rw [heq]

theorem onCmdAuthenticate_keys (h : ¬ p.AsksKey) : (onCmdAuthenticate u env p d).dev.keys =
    (getKeyByPacket env.tv p.srcMac d.keys).2 := by
  rw [onCmdAuthenticate, if_neg h]
  exact checkAdmistratorPassword_keys u.toUnspecified env.toEnv p d.nvram d.keys

theorem onCmdSetUserPassword_keys
    (h : ∀ k, liveKey env.tv p.srcMac d.keys = some k → ¬ MatchesOld u env p d.nvram k) :
    (onCmdSetUserPassword u env p d).dev.keys = (getKeyByPacket env.tv p.srcMac d.keys).2 := by
  rcases onCmdSetUserPassword_cases u env p d with
    ⟨k, hk, hmatches, -⟩ | ⟨-, ret, -, heq⟩
  · exact absurd hmatches (h k hk)
  · rw [heq]

/-- A packet that matches under a live key is accepted, if it sets a password that it has one to
set. -/
theorem handlerOf_accepts {k : Key} (hk : liveKey env.tv p.srcMac d.keys = some k)
    (hchecked : Checked p.cmd) (hmatches : Matches u env p d.nvram k)
    (hsets : p.cmd = FINDER_CMD_SET_USER_PASSWORD → SetsPassword env p k) :
    (handlerOf p.cmd u env p d).ret = SUCCESS := by
  have hbehind (settings : Api Unit) (effects : List Effect)
      (hcmd : p.cmd ≠ FINDER_CMD_SET_USER_PASSWORD) :
      (behindPassword u env p d settings effects).ret = SUCCESS := by
    rw [Matches, if_neg hcmd] at hmatches
    rcases behindPassword_cases u env p d settings effects with
      ⟨k', -, -, heq⟩ | ⟨hnot, -⟩
    · rw [heq]
    · exact absurd hmatches (hnot k hk)
  rcases hchecked with hcmd | hcmd | hcmd | hcmd
  · rw [hcmd]
    exact hbehind _ _ (by rw [hcmd]; decide)
  · rw [hcmd]
    exact hbehind _ _ (by rw [hcmd]; decide)
  · rw [Matches, if_pos hcmd] at hmatches
    rw [hcmd]
    change (onCmdSetUserPassword u env p d).ret = SUCCESS
    rcases onCmdSetUserPassword_cases u env p d with
      ⟨k', hk', -, heq⟩ | ⟨hnot, -⟩
    · obtain rfl : k = k' := Option.some.inj (hk.symm.trans hk')
      rw [heq]
      exact if_pos (hsets hcmd)
    · exact absurd hmatches (hnot k hk)
  · rw [hcmd]
    exact hbehind _ _ (by rw [hcmd]; decide)

/-- A packet that does not expire the key looks it up, or leaves the table alone. -/
theorem handlerOf_keys (hquiet : ¬ EndsSession u env p d) :
    (handlerOf p.cmd u env p d).dev.keys =
      if UsesKey p then (getKeyByPacket env.tv p.srcMac d.keys).2 else d.keys := by
  obtain ⟨hasks, hold⟩ := not_or.mp hquiet
  rcases handlerOf_mem p.cmd with hmem | ⟨hnone, heq⟩
  · simp only [DO_SERVER_CHANGE_FUNC_TABLE, List.mem_cons, List.not_mem_nil, or_false,
      Prod.mk.injEq] at hmem
    -- One case for each row of the table.
    rcases hmem with ⟨hcmd, hh⟩ | ⟨hcmd, hh⟩ | ⟨hcmd, hh⟩ | ⟨hcmd, hh⟩ | ⟨hcmd, hh⟩ | ⟨hcmd, hh⟩ |
      ⟨hcmd, hh⟩ | ⟨hcmd, hh⟩ | ⟨hcmd, hh⟩ <;> rw [hh]
    case inl | inr.inl | inr.inr.inr.inr.inl | inr.inr.inr.inr.inr.inr.inr.inr =>
      rw [if_neg (by unfold UsesKey; rw [hcmd]; decide)]
      rfl
    case inr.inr.inl =>
      rw [if_pos (.inr hcmd)]
      exact onCmdAuthenticate_keys fun h => hasks ⟨hcmd, h⟩
    case inr.inr.inr.inl | inr.inr.inr.inr.inr.inl | inr.inr.inr.inr.inr.inr.inr.inl =>
      rw [if_pos (by unfold UsesKey; rw [hcmd]; decide)]
      exact behindPassword_keys _ _
    case inr.inr.inr.inr.inr.inr.inl =>
      rw [if_pos (.inl (.inr (.inr (.inl hcmd))))]
      exact onCmdSetUserPassword_keys fun k hk h => hold ⟨hcmd, k, hk, h⟩
  · have hno : ¬ UsesKey p := by
      intro h
      have hmem : p.cmd ∈ effectiveCommands := by
        rcases h with (h | h | h | h) | h <;> rw [h] <;> decide
      obtain ⟨entry, hrow, hcmd⟩ := exists_row hmem
      exact hnone entry hrow hcmd
    rw [heq, if_neg hno]

/-! ## The run -/

/-- The right credentials match, if they fit. -/
theorem RightCredentials.matches {k : Key} (h : RightCredentials u env p d.nvram k)
    (hfit : ¬ LongCredentials u.toUnspecified d.nvram) : Matches u env p d.nvram k := by
  have htexts := h.texts
  unfold credentials at htexts
  unfold Matches
  split at htexts
  case isTrue hcmd =>
    rw [if_pos hcmd]
    exact ⟨(h.given hcmd).1, (h.given hcmd).2.1, held_eq_of_stored hfit le_rfl le_rfl htexts⟩
  case isFalse hcmd =>
    rw [if_neg hcmd]
    exact held_eq_of_stored hfit (by decide) (by decide) htexts

/-- An answer comes from a packet that arrived and its handler. -/
theorem mainFlow_some {r : Outcome} (h : mainFlow u env p d = some r) :
    Arrives u d p ∧ r.ret = (handlerOf p.cmd u env p d).ret ∧
      r.dev = (handlerOf p.cmd u env p d).dev ∧
      r.tags = addTags [(addTagIntegerToTagList · TAG_OPERATION_RESULT (UInt32.ofInt r.ret))]
        (handlerOf p.cmd u env p d).tags := by
  unfold mainFlow at h
  split at h
  case isTrue harrives =>
    cases h
    exact ⟨harrives, rfl, rfl, rfl⟩
  case isFalse => cases h

end

theorem flatMap_leBytes_inj {vs vs' : List UInt32} (hlen : vs.length = vs'.length)
    (h : (vs.flatMap fun v => leBytes 4 v.toNat) = vs'.flatMap fun v => leBytes 4 v.toNat) :
    vs = vs' := by
  induction vs generalizing vs' with
  | nil => exact (List.eq_nil_of_length_eq_zero hlen.symm).symm
  | cons v vs ih =>
    cases vs' with
    | nil => cases hlen
    | cons v' vs' =>
      obtain ⟨hhead, htail⟩ := List.append_inj h (by rw [leBytes_length, leBytes_length])
      have hmod (w : UInt32) : w.toNat % 256 ^ 4 = w.toNat :=
        Nat.mod_eq_of_lt (w.toNat_lt.trans_eq (by decide))
      have hval := congrArg ofLe hhead
      rw [ofLe_leBytes, ofLe_leBytes, hmod, hmod] at hval
      rw [UInt32.toNat_inj.mp hval, ih (Nat.succ_injective hlen) htail]

/-- The bytes of a key say which one it is. -/
theorem keyBytes_inj {k k' : Key} (h : keyBytes k = keyBytes k') : k = k' :=
  Vector.toList_inj.mp (flatMap_leBytes_inj (by simp) h)

/-- A property of all tags is kept by a call that adds one with it. -/
theorem place_forall {P : DataTag → Prop} {l : TagList} {tag len : ℕ} {data : List UInt8}
    (hl : ∀ t ∈ l, P t) (hnew : P ⟨UInt8.ofNat tag, UInt8.ofNat len, data⟩) :
    ∀ t ∈ ((place l tag len data).map Prod.snd).getD l, P t := by
  unfold place
  split
  · exact hl
  · intro t ht
    rcases List.mem_append.mp ht with ht | ht
    · exact hl t ht
    · exact List.mem_singleton.mp ht ▸ hnew

/-- Where a tag for a key has the bytes of one key, the answer gives that one. -/
def OnlyKey (k : Key) (l : TagList) : Prop :=
  ∀ t ∈ l, t.tag = UInt8.ofNat TAG_TEMP_KEY → t.data = keyBytes k

section
variable {k : Key} {l : TagList}

theorem onlyKey_ip (h : OnlyKey k l) (ip : CStr) :
    OnlyKey k (((addExtTagStringToTagList l TAG_EXT_FINDER_BROADCAST_IP ip).map Prod.snd).getD l) := by
  unfold addExtTagStringToTagList
  split_ifs
  · exact h
  · exact h
  · have hne : UInt8.ofNat TAG_EXTENSION.toNat ≠ UInt8.ofNat TAG_TEMP_KEY := by decide
    exact place_forall h fun htag => absurd htag hne

theorem onlyKey_result (h : OnlyKey k l) (value : UInt32) :
    OnlyKey k (((addTagIntegerToTagList l TAG_OPERATION_RESULT value).map Prod.snd).getD l) := by
  unfold addTagIntegerToTagList
  split_ifs
  · exact h
  · have hne : UInt8.ofNat TAG_OPERATION_RESULT ≠ UInt8.ofNat TAG_TEMP_KEY := by decide
    exact place_forall h fun htag => absurd htag hne

theorem onlyKey_key (h : OnlyKey k l) :
    OnlyKey k (((addTagIntegerArrayToTagList l TAG_TEMP_KEY k.toList).map Prod.snd).getD l) := by
  have hbytes : integerLoop (fun len => decide (len + 4 > 0xff)) k.toList [] = keyBytes k := by
    refine integerLoop_all fun j hj => decide_eq_false ?_
    rw [Vector.length_toList, KEY_LENGTH32] at hj
    omega
  unfold addTagIntegerArrayToTagList
  split_ifs
  · exact h
  · dsimp only
    rw [hbytes]
    exact place_forall h fun _ => rfl

end

/-- The tag for a key in the answer to a key request has the bytes of the key in the table. -/
theorem onCmdAuthenticate_gives {u : Platform} {env : Site} {p : Packet} {d : Device}
    (hasks : p.AsksKey) {r : Outcome} {k : Key} (hret : r.ret = (onCmdAuthenticate u env p d).ret)
    (htags : r.tags = addTags [(addTagIntegerToTagList · TAG_OPERATION_RESULT (UInt32.ofInt r.ret))]
      (onCmdAuthenticate u env p d).tags) (hkey : r.GivesKey k) :
    ∃ i, (getNewKeyByPacket env.tv env.fresh p.srcMac (expireKeyByPacket p.srcMac d.keys)).1 =
      some i ∧ ((getNewKeyByPacket env.tv env.fresh p.srcMac
        (expireKeyByPacket p.srcMac d.keys)).2 i).key = k ∧
      (onCmdAuthenticate u env p d).dev = { d with
        keys := (getNewKeyByPacket env.tv env.fresh p.srcMac
          (expireKeyByPacket p.srcMac d.keys)).2 } := by
  obtain ⟨hsuccess, t, ht, htag, hdata⟩ := hkey
  rw [htags] at ht
  rw [hret] at hsuccess
  unfold onCmdAuthenticate at hsuccess ht ⊢
  rw [if_pos hasks] at hsuccess ht ⊢
  generalize getNewKeyByPacket env.tv env.fresh p.srcMac (expireKeyByPacket p.srcMac d.keys) = g
    at hsuccess ht ⊢
  obtain ⟨_ | i, keys⟩ := g
  · exact absurd hsuccess (by simp [ERROR_AUTHENTICATION, SUCCESS])
  · refine ⟨i, rfl, ?_, rfl⟩
    have honly : OnlyKey (keys i).key [] := fun _ ht => absurd ht List.not_mem_nil
    have hgiven := onlyKey_result (onlyKey_key (onlyKey_ip honly env.recvIpStr)) (UInt32.ofInt r.ret)
      t ht htag
    exact keyBytes_inj (hgiven.symm.trans hdata)

/-- From the request on, everybody's packets leave the client its session. -/
theorem Handshaken.session {C : Type} {u : Platform} {c : C} {k : Key} {d : Device} {used now : ℤ}
    (h : Handshaken u (Considerate u) c k d used now) :
    Session d.keys (routerId u d.nvram) k used ∧ used ≤ now := by
  induction h with
  | @granted d m hsender hcmd hasks r hanswer hkey =>
    obtain ⟨harrives, hret, hdev, htags⟩ := mainFlow_some hanswer
    have hid : m.packet.srcMac = routerId u d.nvram :=
      srcMac_eq harrives (by rw [hcmd]; decide)
    have hhandler : handlerOf m.packet.cmd = onCmdAuthenticate := by
      rw [hcmd]
      rfl
    rw [hhandler] at hret hdev htags
    obtain ⟨i, hi, rfl, hkeys⟩ := onCmdAuthenticate_gives hasks hret htags hkey
    rw [hdev, hkeys, ← hid]
    exact ⟨session_granted hi, le_rfl⟩
  | @message d used now h m hallowed hown r hanswer ih =>
    obtain ⟨hsession, hle⟩ := ih
    obtain ⟨hother, -, hclock⟩ := hallowed
    obtain ⟨harrives, -, hdev, -⟩ := mainFlow_some hanswer
    have hquiet : ¬ EndsSession u m.env m.packet d := by
      by_cases hsender : m.sender = c
      · exact hown hsender
      · exact hother hsender
    have hid : routerId u r.dev.nvram = routerId u d.nvram := by rw [hdev, handlerOf_routerId]
    rw [hid, hdev, handlerOf_keys hquiet]
    by_cases huse : UsesKey m.packet
    · have hmac : m.packet.srcMac = routerId u d.nvram := by
        refine srcMac_eq harrives ?_
        rcases huse with (hcmd | hcmd | hcmd | hcmd) | hcmd <;> rw [hcmd] <;> decide
      rw [if_pos huse, hmac]
      by_cases hage : m.time ≤ used + KEY_TABLE_AGING_SEC
      · rw [if_pos ⟨huse, hage⟩]
        exact ⟨(hsession.live hage).2, le_rfl⟩
      · rw [if_neg fun h => hage h.2]
        exact ⟨hsession.getKey (hle.trans hclock), hle.trans hclock⟩
    · rw [if_neg huse, if_neg fun h => huse h.1]
      exact ⟨hsession, hle.trans hclock⟩

/-- Clients that are considerate do not lose their sessions. -/
theorem sessionsApart_of_considerate (C : Type) (u : Platform) :
    SessionsApart C u (Considerate u) := by
  intro c k d used now m r h hsender hallowed hanswer hage hchecked hright
  obtain ⟨hsession, -⟩ := h.session
  obtain ⟨harrives, hret, -, -⟩ := mainFlow_some hanswer
  have hmac : m.packet.srcMac = routerId u d.nvram := by
    refine srcMac_eq harrives ?_
    rcases hchecked with hcmd | hcmd | hcmd | hcmd <;> rw [hcmd] <;> decide
  have hlive := (hsession.live hage).1
  rw [← hmac] at hlive
  rw [hret]
  exact handlerOf_accepts hlive hchecked (hright.matches hallowed.2.1)
    fun hcmd => (hright.given hcmd).2.2

/-! ## Two clients of one router -/

/-- A request for a key. -/
def keyRequest : Packet := packetFor FINDER_CMD_AUTHENTICATE []

/-- The name `nas`, with `admin` and `secret` encrypted with the key 1, 2, 3, 4. -/
def namePacket : Packet := packetFor FINDER_CMD_SET_SERVER_NAME
  ([11, 17] ++ (CStr.ofString "047ad4bbb7f2d544").stored ++
    [10, 17] ++ (CStr.ofString "68dfeef0ae8c0eb6").stored ++ [1, 4] ++ (CStr.ofString "nas").stored)

/-- The first client asks for a key. -/
def firstAsks : Message Bool := ⟨true, siteAt 5000 (randomKey 1 2 3 4), keyRequest⟩

/-- The other one asks for a key. -/
def secondAsks : Message Bool := ⟨false, siteAt 5001 (randomKey 5 6 7 8), keyRequest⟩

/-- The other one gives its credentials. -/
def secondNames : Message Bool := ⟨false, siteAt 5001 (randomKey 5 6 7 8), namePacket⟩

/-- The first client sets the name. -/
def firstNames : Message Bool := ⟨true, siteAt 5002 (randomKey 0 0 0 0), namePacket⟩

/-- The router after a packet that arrives. -/
def after (m : Message Bool) (d : Device) : Device :=
  (handlerOf m.packet.cmd cleanPlatform m.env m.packet d).dev

theorem mainFlow_after {m : Message Bool} {d : Device} (h : Arrives cleanPlatform d m.packet) :
    ∃ r, mainFlow cleanPlatform m.env m.packet d = some r ∧ r.dev = after m d ∧
      r.ret = (handlerOf m.packet.cmd cleanPlatform m.env m.packet d).ret ∧
      r.tags = addTags [(addTagIntegerToTagList · TAG_OPERATION_RESULT (UInt32.ofInt
        (handlerOf m.packet.cmd cleanPlatform m.env m.packet d).ret))]
        (handlerOf m.packet.cmd cleanPlatform m.env m.packet d).tags := by
  rw [mainFlow, if_pos h]
  exact ⟨_, rfl, rfl, rfl, rfl⟩

/-- The first client has its key. -/
theorem handshaken_first (Allowed : Permission Bool) :
    Handshaken cleanPlatform Allowed true (randomKey 1 2 3 4) (after firstAsks idleRouter) 5000 5000 := by
  obtain ⟨r, hanswer, hdev, hret, htags⟩ :=
    mainFlow_after (m := firstAsks) (d := idleRouter) (by decide +kernel)
  rw [← hdev]
  refine .granted firstAsks rfl (by decide +kernel) (by decide +kernel) hanswer ⟨?_, ?_⟩
  · rw [hret]
    decide +kernel
  · rw [htags]
    decide +kernel

/-- The key request of one client takes the session of the other. -/
theorem sessions_not_apart : ¬ SessionsApart Bool cleanPlatform fun _ _ _ _ => True := by
  intro h
  obtain ⟨r, hanswer, hdev, -⟩ :=
    mainFlow_after (m := secondAsks) (d := after firstAsks idleRouter) (by decide +kernel)
  have hshaken := (handshaken_first fun _ _ _ _ => True).message secondAsks trivial nofun hanswer
  rw [hdev] at hshaken
  obtain ⟨r', hanswer', -, hret, -⟩ :=
    mainFlow_after (m := firstNames) (d := after secondAsks (after firstAsks idleRouter))
      (by decide +kernel)
  have hsuccess := h true _ _ _ _ firstNames r' hshaken rfl trivial hanswer' (by decide +kernel)
    (by decide +kernel) ⟨by decide +kernel, fun hcmd => absurd hcmd (by decide +kernel)⟩
  rw [hret] at hsuccess
  exact absurd hsuccess (by decide +kernel)

/-- Next to a client that only sets the name, the first one is accepted. -/
theorem sessionsApart_names :
    (handlerOf FINDER_CMD_SET_SERVER_NAME cleanPlatform firstNames.env namePacket
      (after secondNames (after firstAsks idleRouter))).ret = SUCCESS := by
  obtain ⟨r, hanswer, hdev, -⟩ :=
    mainFlow_after (m := secondNames) (d := after firstAsks idleRouter) (by decide +kernel)
  have hquiet : ¬ EndsSession cleanPlatform secondNames.env secondNames.packet
      (after firstAsks idleRouter) := by
    rintro (⟨hcmd, -⟩ | ⟨hcmd, -⟩) <;> exact absurd hcmd (by decide +kernel)
  have hshaken := (handshaken_first (Considerate cleanPlatform)).message secondNames
    ⟨fun _ => hquiet, not_or.mpr ⟨by decide +kernel, by decide +kernel⟩, by decide +kernel⟩ nofun hanswer
  rw [hdev] at hshaken
  obtain ⟨r', hanswer', -, hret, -⟩ :=
    mainFlow_after (m := firstNames) (d := after secondNames (after firstAsks idleRouter))
      (by decide +kernel)
  have hsuccess := sessionsApart_of_considerate Bool cleanPlatform true _ _ _ _ firstNames r'
    hshaken rfl ⟨fun h => absurd rfl h, not_or.mpr ⟨by decide +kernel, by decide +kernel⟩,
      by decide +kernel⟩ hanswer' (by decide +kernel)
    (by decide +kernel) ⟨by decide +kernel, fun hcmd => absurd hcmd (by decide +kernel)⟩
  rw [hret] at hsuccess
  exact hsuccess

end EzpFirmware.Bcclient
