import EzpFirmware.Lib.Numerals
import EzpFirmware.UserNvram.IpsecRounds

/-! # A tunnel converted among others

What the upgrade makes of a tunnel should depend on that tunnel alone. The length that bounds the
prints is not set back between the rounds, so a tunnel behind long ones is cut.
-/
namespace EzpFirmware.UserNvram
open Lib

/-- The rules of a set that may be missing. -/
def rulesOf (value : Option CStr) : List CStr := storedRules (value.getD CStr.empty)

/-- The rounds of the loop. -/
def ipsecRounds (M : Variables) : ℕ := (atoi (text M IPSEC_RULE_NUM)).toNat

/-- A rule as the only one of its set. -/
def alone (M : Variables) (r : CStr) : Variables :=
  Function.update (Function.update M IPSEC_RULE (some r)) IPSEC_RULE_NUM (some (.ofString "1"))

/-- What the upgrade makes of such a rule. -/
def ConvertsAlone (u : Unspecified) (new : List UInt8) (M : Variables) (r t : CStr) : Prop :=
  ∃ N, runOn (fwFunc175To176 u new) (alone M r) = (.ok (), N) ∧ N IPSEC_RULE = some t

/-- Every rule becomes what it becomes as the only one. -/
def ConvertsEach (u : Unspecified) (new : List UInt8) (M : Variables) : Prop :=
  ∃ M', runOn (fwFunc175To176 u new) M = (.ok (), M') ∧
    ∀ i r, i < ipsecRounds M → (rulesOf (M IPSEC_RULE))[i]? = some r →
      ∃ t, (rulesOf (M' IPSEC_RULE))[i]? = some t ∧ ConvertsAlone u new M r t

/-- The lengths of the rules in front of position `k` when they are converted. -/
def usedLen (rs : List CStr) (k : ℕ) : ℕ := ((rs.take k).map fun r => (ipsecUp r).len).sum

/-- There is room for rule `i`: in `new` behind the rules in front of it, and in the set before and
after the replacement. -/
structure HasRoom (rs : List CStr) (i : ℕ) : Prop where
  new : usedLen rs (i + 1) < RULE_LEN
  before : total ruleSize (mapFirst i ipsecUp rs) ≤ EZPLIB_BUF_LEN
  behind : total ruleSize (mapFirst (i + 1) ipsecUp rs) < EZPLIB_BUF_LEN

section
variable {u : Unspecified} {M M' : Variables} {fs rs : List CStr} {r t : CStr} {i k n : ℕ}
  {pieces : List Piece} {c q : Cursor} {new : List UInt8}

theorem usedLen_succ (hr : rs[k]? = some r) :
    usedLen rs (k + 1) = usedLen rs k + (ipsecUp r).len := by
  rw [usedLen, usedLen, List.take_add_one, hr]
  simp

theorem usedLen_none (hr : rs[k]? = none) : usedLen rs (k + 1) = usedLen rs k := by
  rw [usedLen, usedLen, List.take_add_one, hr]
  simp

/-! ## The whole loop -/

theorem convertIpsec_iff : runOn (convertIpsec u pieces new) M = (.ok (), M') ↔
    ∃ q, runOn (convertFrom u pieces (ipsecRounds M) 0 ⟨new, 0, 0⟩) M = (.ok q, M') := by
  rw [convertIpsec, runOn_bind, runOn_lift, onMap_safeGet]
  dsimp only
  constructor
  · intro hrun
    obtain ⟨q, M₁, hloop, hrest⟩ := runOn_bind_inv hrun
    cases hrest
    exact ⟨q, hloop⟩
  · rintro ⟨q, hloop⟩
    exact runOn_bind_ok hloop _

/-- The rules in front of round `k` had room and are converted. -/
structure Converting (rs : List CStr) (k : ℕ) (M : Variables) (c : Cursor) : Prop where
  lists : Lists M (mapFirst k ipsecUp rs)
  used : c.used = usedLen rs k
  size : c.buf.length = RULE_LEN
  below : c.used < RULE_LEN
  room : ∀ i < k, i < rs.length → HasRoom rs i

/-- Rule `k` is not what it should be, because it has no room. -/
structure Spoilt (rs : List CStr) (k : ℕ) (M : Variables) (fs : List CStr) : Prop where
  lists : Lists M fs
  length : fs.length = rs.length
  wrong : ∃ r, rs[k]? = some r ∧ fs[k]? ≠ some (ipsecUp r)
  full : ¬ HasRoom rs k

theorem Converting.idle (h : Converting rs k M c) (hk : rs[k]? = none) :
    runOn (convertRule u upPieces k c) M = (.ok c.rewind, M) ∧ Converting rs (k + 1) M c.rewind := by
  have hnone : (mapFirst k ipsecUp rs)[k]? = none := by
    rw [getElem?_mapFirst, if_neg (lt_irrefl k), hk]
  constructor
  · apply h.lists.round_idle
    intro r ha
    have hr := ha.1
    rw [hnone] at hr
    cases hr
  · refine ⟨mapFirst_none (f := ipsecUp) hk ▸ h.lists, (usedLen_none hk).symm ▸ h.used, h.size,
      h.below, fun i hi hlen => ?_⟩
    have hik : i ≠ k := by
      rintro rfl
      exact absurd (List.getElem?_eq_none_iff.mp hk) (not_le.mpr hlen)
    exact h.room i (by omega) hlen

/-- One round of the loop. -/
theorem Converting.round (h : Converting rs k M c) (hrs : ∀ r ∈ rs, Rule175 r)
    (hr : rs[k]? = some r) (hrun : runOn (convertRule u upPieces k c) M = (.ok q, M')) :
    Converting rs (k + 1) M' q ∨ ∃ fs, Spoilt rs k M' fs ∧
      (total ruleSize fs ≤ EZPLIB_BUF_LEN → ReadsPlain q) := by
  have hrule := hrs r (List.mem_of_getElem? hr)
  have hnow : (mapFirst k ipsecUp rs)[k]? = some r := by
    rw [getElem?_mapFirst, if_neg (lt_irrefl k), hr]
  have hlength : (mapFirst k ipsecUp rs).length = rs.length := List.length_mapIdx
  have hset : (mapFirst k ipsecUp rs).set k (ipsecUp r) = mapFirst (k + 1) ipsecUp rs :=
    set_mapFirst hr
  have hspoilt {w : CStr} (hw : w ≠ ipsecUp r) (hfull : ¬ HasRoom rs k)
      (hlists : Lists M' (replaceAt ruleSize EZPLIB_BUF_LEN (mapFirst k ipsecUp rs) k w)) :
      Spoilt rs k M' (replaceAt ruleSize EZPLIB_BUF_LEN (mapFirst k ipsecUp rs) k w) := by
    refine ⟨hlists, replaceAt_length.trans hlength, ⟨r, hr, ?_⟩, hfull⟩
    rcases getElem?_replaceAt_self ruleSize EZPLIB_BUF_LEN (mapFirst k ipsecUp rs) k w with h | h
    · rw [h, hnow]
      exact fun hsame => hrule.ipsecUp_ne (Option.some.inj hsame).symm
    · rw [h]
      exact fun hsame => hw (Option.some.inj hsame)
  by_cases hbefore : total ruleSize (mapFirst k ipsecUp rs) ≤ EZPLIB_BUF_LEN
  · have ha : Active (mapFirst k ipsecUp rs) k r := ⟨hnow, hrule.ne, hbefore⟩
    have hused : usedLen rs (k + 1) = c.used + (ipsecUp r).len := by rw [usedLen_succ hr, h.used]
    by_cases hnew : c.used + (ipsecUp r).len < c.buf.length
    · obtain ⟨hlists, hused', hlen, hplain⟩ :=
        h.lists.round_whole ha upPieces_sound hrule.ipsecUp_pos hnew hrun
      by_cases hbehind : total ruleSize (mapFirst (k + 1) ipsecUp rs) < EZPLIB_BUF_LEN
      · rw [replaceAt, ← ipsecUp, hset, if_pos ⟨hbefore, hbehind⟩] at hlists
        refine .inl ⟨hlists, hused'.trans hused.symm, hlen.trans h.size,
          hused'.trans_lt (h.size ▸ hnew), fun i hi hin => ?_⟩
        rcases Nat.lt_succ_iff_lt_or_eq.mp hi with hlt | rfl
        · exact h.room i hlt hin
        · exact ⟨hused.trans_lt (h.size ▸ hnew), hbefore, hbehind⟩
      · rw [replaceAt, ← ipsecUp, hset, if_neg fun hc => hbehind hc.2] at hlists
        refine .inr ⟨_, ⟨hlists, hlength, ⟨r, hr, ?_⟩, fun hroom => hbehind hroom.behind⟩,
          fun _ => hplain⟩
        rw [hnow]
        exact fun hsame => hrule.ipsecUp_ne (Option.some.inj hsame).symm
    · have hfits := ((h.lists.round_iff ha upPieces_sound).mp hrun).1
      have hlen := ipsecUp_len hfits
      have hsize := h.size
      have hbelow := h.below
      have htwo : 2 ≤ (mapFirst k ipsecUp rs).length := by
        have hk : k < rs.length := (List.getElem?_eq_some_iff.mp hr).1
        have hk0 : k ≠ 0 := by
          rintro rfl
          have hzero : c.used = 0 := h.used
          omega
        omega
      obtain ⟨hplain, w, hw, hlists⟩ := h.lists.round_cut ha upPieces_sound (by omega)
        (not_lt.mp hnew) htwo hrun
      refine .inr ⟨_, hspoilt (w := w) (fun h => ?_) (fun hroom => ?_) hlists, fun _ => hplain⟩
      · exact absurd (congrArg CStr.len h) hw.ne
      · have hroom' := hroom.new
        omega
  · have hidle : runOn (convertRule u upPieces k c) M = (.ok c.rewind, M) :=
      h.lists.round_idle fun r ha => hbefore ha.2.2
    rw [hidle] at hrun
    cases hrun
    refine .inr ⟨_, ⟨h.lists, hlength, ⟨r, hr, ?_⟩, fun hroom => hbefore hroom.before⟩,
      fun hroom => absurd hroom hbefore⟩
    rw [hnow]
    exact fun hsame => hrule.ipsecUp_ne (Option.some.inj hsame).symm

/-- The whole loop, if it returns. -/
theorem Converting.rounds (h : Converting rs k M c) (hrs : ∀ r ∈ rs, Rule175 r)
    (hrun : runOn (convertFrom u upPieces n k c) M = (.ok q, M')) :
    Converting rs (k + n) M' q ∨ ∃ j fs, j < k + n ∧ Spoilt rs j M' fs := by
  induction n generalizing k c M with
  | zero =>
    cases hrun
    exact .inl h
  | succ n ih =>
    obtain ⟨c', M₁, hround, hrest⟩ := runOn_bind_inv hrun
    have hstep : k + 1 + n = k + (n + 1) := by omega
    cases hr : rs[k]? with
    | none =>
      obtain ⟨hidle, hnext⟩ := h.idle (u := u) hr
      rw [hidle] at hround
      cases hround
      exact hstep ▸ ih hnext hrest
    | some r =>
      rcases h.round hrs hr hround with hnext | ⟨fs, hspoilt, hplain⟩
      · exact hstep ▸ ih hnext hrest
      · have hk : k < fs.length := by
          rw [hspoilt.length]
          exact (List.getElem?_eq_some_iff.mp hr).1
        obtain ⟨gs, hgs, hleaves⟩ :=
          hspoilt.lists.rounds_leave upPieces_sound hk (Nat.lt_succ_self k) hplain hrest
        refine .inr ⟨k, gs, by omega, hgs, hleaves.length.trans hspoilt.length, ?_, hspoilt.full⟩
        rw [hleaves.same]
        exact hspoilt.wrong

/-- With room for every rule the loop returns. -/
theorem Converting.returns (h : Converting rs k M c) (hrs : ∀ r ∈ rs, Rule175 r)
    (hfits : ∀ r ∈ rs, ∀ p ∈ upPieces, p.Fits r)
    (hroom : ∀ i, k ≤ i → i < k + n → i < rs.length → HasRoom rs i) :
    ∃ q M', runOn (convertFrom u upPieces n k c) M = (.ok q, M') := by
  induction n generalizing k c M with
  | zero => exact ⟨c, M, rfl⟩
  | succ n ih =>
    have hlater : ∀ i, k + 1 ≤ i → i < k + 1 + n → i < rs.length → HasRoom rs i :=
      fun i hi hin => hroom i (by omega) (by omega)
    cases hr : rs[k]? with
    | none =>
      obtain ⟨hidle, hnext⟩ := h.idle (u := u) hr
      obtain ⟨q, M', hrest⟩ := ih hnext hlater
      exact ⟨q, M', (runOn_bind_ok hidle _).trans hrest⟩
    | some r =>
      have hk := hroom k le_rfl (by omega) (List.getElem?_eq_some_iff.mp hr).1
      have hrule := hrs r (List.mem_of_getElem? hr)
      have ha : Active (mapFirst k ipsecUp rs) k r := by
        refine ⟨?_, hrule.ne, hk.before⟩
        rw [getElem?_mapFirst, if_neg (lt_irrefl k), hr]
      have hnew : c.used + (converted upPieces r).len < c.buf.length := by
        have hlen := hk.new
        rw [usedLen_succ hr, ← h.used, ← h.size] at hlen
        exact hlen
      obtain ⟨c', M₁, hround⟩ := h.lists.round_runs (u := u) ha upPieces_sound hrule.ipsecUp_pos
        (hfits r (List.mem_of_getElem? hr)) hnew
      rcases h.round hrs hr hround with hnext | ⟨fs, hspoilt, -⟩
      · obtain ⟨q, M', hrest⟩ := ih hnext hlater
        exact ⟨q, M', (runOn_bind_ok hround _).trans hrest⟩
      · exact absurd hk hspoilt.full

/-! ## Sets with rules and without -/

theorem holdsRules_of (hne : rulesOf (M IPSEC_RULE) ≠ [])
    (hrules : ∀ r ∈ rulesOf (M IPSEC_RULE), Storable r) :
    HoldsRules M IPSEC_RULE (rulesOf (M IPSEC_RULE)) := by
  refine ⟨IPSEC_RULE_ne, ?_, hne, hrules⟩
  cases htext : M IPSEC_RULE with
  | none =>
    rw [htext] at hne
    exact absurd rfl hne
  | some text => rw [rulesOf, Option.getD_some, joinRules_storedRules]

theorem Lists.rulesOf (h : Lists M fs) : rulesOf (M IPSEC_RULE) = fs := by
  rw [h.stored, UserNvram.rulesOf, Option.getD_some]
  exact storedRules_joinRules (fun f hf => ((plainByte_iff f).mp (h.plain f hf)).1) h.ne

/-- Without rules no round does anything. -/
theorem rounds_empty (h : rulesOf (M IPSEC_RULE) = []) :
    ∃ q, runOn (convertFrom u pieces n i c) M = (.ok q, M) := by
  have hround (i : ℕ) (c : Cursor) : runOn (convertRule u pieces i c) M = (.ok c.rewind, M) := by
    have hsame := onMap_of_confined (confined_getRule u IPSEC_RULE i RULE_LEN) M
    have hget : (onMap (ezplibGetRule u IPSEC_RULE i RULE_LEN) M).1.2 = CStr.empty := by
      rw [ezplibGetRule, if_neg IPSEC_RULE_ne, onMap_bind, onMap_get]
      cases htext : M IPSEC_RULE with
      | none => rfl
      | some text =>
        rw [htext] at h
        have htext0 : text = CStr.empty := storedRules_empty_iff.mp h
        dsimp only
        rw [if_pos htext0]
        rfl
    have hold : runOn (ruleIn u RULE_LEN IPSEC_RULE i) M = (.ok CStr.empty, M) := by
      rw [UserNvram.ruleIn, runOn_bind, runOn_lift, hsame]
      exact congrArg (fun w => (Except.ok w, M)) hget
    rw [convertRule, runOn_bind_ok hold, if_pos rfl]
    rfl
  induction n generalizing i c with
  | zero => exact ⟨c, rfl⟩
  | succ n ih =>
    obtain ⟨q, hrest⟩ := ih (i := i + 1) (c := c.rewind)
    exact ⟨q, (runOn_bind_ok (hround i c) _).trans hrest⟩

/-! ## A rule alone -/

theorem converting_start (h : Lists M rs) (hnew : new.length = RULE_LEN) :
    Converting rs 0 M ⟨new, 0, 0⟩ :=
  ⟨mapFirst_zero.symm ▸ h, rfl, hnew, Nat.zero_lt_succ _, fun i hi => absurd hi (Nat.not_lt_zero i)⟩

theorem ConvertsAlone.unique {t' : CStr} (h : ConvertsAlone u new M r t)
    (h' : ConvertsAlone u new M r t') : t = t' := by
  obtain ⟨N, hrun, ht⟩ := h
  obtain ⟨N', hrun', ht'⟩ := h'
  rw [hrun] at hrun'
  cases hrun'
  exact Option.some.inj (ht.symm.trans ht')

theorem alone_lists (hr : Rule175 r) : Lists (alone M r) [r] := by
  have hset : alone M r IPSEC_RULE = some (joinRules [r]) := by
    rw [alone, Function.update_of_ne (by decide), Function.update_self]
    rfl
  exact HoldsRules.lists ⟨IPSEC_RULE_ne, hset, List.cons_ne_nil r [], fun x hx =>
    List.mem_singleton.mp hx ▸ hr.toStorable⟩

theorem alone_rounds (M : Variables) (r : CStr) : ipsecRounds (alone M r) = 1 := by
  have hnum : text (alone M r) IPSEC_RULE_NUM = .ofString "1" := by
    rw [text, alone, Function.update_self]
    rfl
  rw [ipsecRounds, hnum]
  decide

theorem alone_room (hfits : ∀ p ∈ upPieces, p.Fits r) (hlen : r.len < EZPLIB_BUF_LEN) :
    HasRoom [r] 0 := by
  have hsizes : RULE_LEN = 1024 ∧ EZPLIB_BUF_LEN = 8192 := ⟨rfl, rfl⟩
  have hup := ipsecUp_len hfits
  refine ⟨?_, ?_, ?_⟩
  · rw [usedLen_succ rfl]
    exact (Nat.zero_add _).trans_lt hup
  · rw [mapFirst_zero]
    exact hlen
  · change (ipsecUp r).len + 1 + 0 < _
    omega

/-- A rule whose parts fit is converted alone. -/
theorem convertsAlone_of (u : Unspecified) (M : Variables) (hr : Rule175 r)
    (hnew : new.length = RULE_LEN) (hfits : ∀ p ∈ upPieces, p.Fits r)
    (hlen : r.len < EZPLIB_BUF_LEN) : ConvertsAlone u new M r (ipsecUp r) := by
  have hrs : ∀ x ∈ [r], Rule175 x := fun x hx => List.mem_singleton.mp hx ▸ hr
  have hroom := alone_room hfits hlen
  have hstart := converting_start (alone_lists (M := M) hr) hnew
  obtain ⟨q, N, hloop⟩ := hstart.returns (u := u) (n := 1) hrs
    (fun x hx => List.mem_singleton.mp hx ▸ hfits) fun i _ hi _ => by
      obtain rfl : i = 0 := by omega
      exact hroom
  refine ⟨N, convertIpsec_iff.mpr ⟨q, (alone_rounds M r).symm ▸ hloop⟩, ?_⟩
  rcases hstart.rounds hrs hloop with hdone | ⟨j, fs, hj, hspoilt⟩
  · exact hdone.lists.stored
  · obtain rfl : j = 0 := by omega
    exact absurd hroom hspoilt.full

/-- A rule that becomes a short one alone is read and converted. -/
theorem ConvertsAlone.spec (h : ConvertsAlone u new M r t) (hr : Rule175 r)
    (hnew : new.length = RULE_LEN) (ht : t.len < RULE_LEN) :
    (∀ p ∈ upPieces, p.Fits r) ∧ t = ipsecUp r := by
  have hlists := alone_lists (M := M) hr
  have hsizes : RULE_LEN = 1024 ∧ EZPLIB_BUF_LEN = 8192 := ⟨rfl, rfl⟩
  obtain ⟨N, hrun, hN⟩ := id h
  obtain ⟨q, hloop⟩ := convertIpsec_iff.mp hrun
  rw [alone_rounds] at hloop
  obtain ⟨c', M₁, hround, hrest⟩ := runOn_bind_inv hloop
  by_cases hlen : r.len < EZPLIB_BUF_LEN
  · have hfits := ((hlists.round_iff ⟨rfl, hr.ne, hlen⟩ upPieces_sound).mp hround).1
    exact ⟨hfits, h.unique (convertsAlone_of u M hr hnew hfits hlen)⟩
  · rw [hlists.round_idle fun x ha => hlen ha.2.2] at hround
    cases hround
    cases hrest
    have hsame : r = t := Option.some.inj (hlists.stored.symm.trans hN)
    rw [hsame] at hlen
    omega

/-- The rules that become short ones alone. -/
theorem alone_all (hnew : new.length = RULE_LEN) (hrules : ∀ r ∈ rs, Rule175 r)
    (hshort : ∀ r ∈ rs, ∃ t, ConvertsAlone u new M r t ∧ t.len < RULE_LEN) :
    ∀ r ∈ rs, (∀ p ∈ upPieces, p.Fits r) ∧ ConvertsAlone u new M r (ipsecUp r) := by
  intro r hr
  obtain ⟨t, ht, hlen⟩ := hshort r hr
  obtain ⟨hfits, rfl⟩ := ht.spec (hrules r hr) hnew hlen
  exact ⟨hfits, ht⟩

theorem ConvertsEach.room (h : ConvertsEach u new M) (hnew : new.length = RULE_LEN)
    (hrules : ∀ r ∈ rulesOf (M IPSEC_RULE), Rule175 r)
    (halone : ∀ r ∈ rulesOf (M IPSEC_RULE), ConvertsAlone u new M r (ipsecUp r))
    (hi : i < ipsecRounds M) (hlen : i < (rulesOf (M IPSEC_RULE)).length) :
    HasRoom (rulesOf (M IPSEC_RULE)) i := by
  have hempty : rulesOf (M IPSEC_RULE) ≠ [] := List.ne_nil_of_length_pos (by omega)
  have hlists := (holdsRules_of hempty fun r hr => (hrules r hr).toStorable).lists
  obtain ⟨M', hrun, heach⟩ := h
  obtain ⟨q, hloop⟩ := convertIpsec_iff.mp hrun
  rcases (converting_start hlists hnew).rounds hrules hloop with hdone | ⟨j, fs, hj, hspoilt⟩
  · exact hdone.room i (by omega) hlen
  · obtain ⟨r, hr, hwrong⟩ := hspoilt.wrong
    obtain ⟨t, ht, hown⟩ := heach j r (by omega) hr
    rw [hspoilt.lists.rulesOf, hown.unique (halone r (List.mem_of_getElem? hr))] at ht
    exact absurd ht hwrong

end

/-- Every rule becomes what it becomes alone exactly if there is room for every one: in the buffer
behind what the rules in front of it become, and in the set. The rules have no percent sign. -/
theorem convertsEach_iff (u : Unspecified) (new : List UInt8) (M : Variables)
    (hnew : new.length = RULE_LEN) (hrules : ∀ r ∈ rulesOf (M IPSEC_RULE), Rule175 r)
    (hshort : ∀ r ∈ rulesOf (M IPSEC_RULE), ∃ t, ConvertsAlone u new M r t ∧ t.len < RULE_LEN) :
    ConvertsEach u new M ↔ ∀ i, i < ipsecRounds M → i < (rulesOf (M IPSEC_RULE)).length →
      HasRoom (rulesOf (M IPSEC_RULE)) i := by
  have halone := alone_all hnew hrules hshort
  constructor
  · intro h i hi hlen
    exact h.room hnew hrules (fun r hr => (halone r hr).2) hi hlen
  · intro hroom
    by_cases hempty : rulesOf (M IPSEC_RULE) = []
    · obtain ⟨q, hloop⟩ : ∃ q, runOn (convertFrom u upPieces (ipsecRounds M) 0 ⟨new, 0, 0⟩) M =
          (.ok q, M) := rounds_empty hempty
      refine ⟨M, convertIpsec_iff.mpr ⟨q, hloop⟩, fun i r _ hr => ?_⟩
      rw [hempty] at hr
      cases hr
    · have hlists := (holdsRules_of hempty fun r hr => (hrules r hr).toStorable).lists
      have hstart := converting_start hlists hnew
      obtain ⟨q, M', hloop⟩ := hstart.returns (u := u) (n := ipsecRounds M) hrules
        (fun r hr => (halone r hr).1) fun i _ hi hlen => hroom i (by omega) hlen
      refine ⟨M', convertIpsec_iff.mpr ⟨q, hloop⟩, fun i r hi hr => ?_⟩
      rcases hstart.rounds hrules hloop with hdone | ⟨j, fs, hj, hspoilt⟩
      · refine ⟨ipsecUp r, ?_, (halone r (List.mem_of_getElem? hr)).2⟩
        rw [hdone.lists.rulesOf, getElem?_mapFirst, if_pos (by omega), hr]
        rfl
      · obtain ⟨r', hr', -⟩ := hspoilt.wrong
        exact absurd (hroom j (by omega) (List.getElem?_eq_some_iff.mp hr').1) hspoilt.full

/-- Tunnels with long names, networks and keys. -/
def longTunnel : CStr :=
  let long : CStr := .ofString "aaaaaaaaaabbbbbbbbbbccccccccccddddddddddeeeeeeeeee"
  let none : CStr := CStr.empty
  let set : CStr := .ofString "1"
  let clear : CStr := .ofString "0"
  joinAttrs [long, set, long, long, none, none, none, none, none, none, none, none, long, set,
    clear, clear, set, clear, long, set, clear, clear, set, clear, long, none, clear, long, none,
    none, none]

/-- A number of them. -/
def longTunnels (n : ℕ) : Variables := fun m =>
  if m = IPSEC_RULE then some (joinRules (List.replicate n longTunnel))
  else if m = IPSEC_RULE_NUM then some (decimal n) else none

theorem longTunnel_rule : Rule175 longTunnel ∧ (∀ p ∈ upPieces, p.Fits longTunnel) ∧
    longTunnel.len = 392 ∧ (ipsecUp longTunnel).len = 396 := by
  have hall : longTunnel ≠ CStr.empty ∧ RULE_SEP ∉ longTunnel.val ∧ PERCENT ∉ longTunnel.val ∧
      (longTunnel.fields ATTR_SEP).length = 31 ∧ (∀ p ∈ upPieces, p.Fits longTunnel) ∧
      longTunnel.len = 392 ∧ (ipsecUp longTunnel).len = 396 := by decide +kernel
  obtain ⟨hne, hfree, hplain, hfields, hrest⟩ := hall
  exact ⟨⟨⟨hne, hfree, hplain⟩, hfields⟩, hrest⟩

theorem longTunnels_rules {n : ℕ} (hn : n ≠ 0) :
    rulesOf (longTunnels n IPSEC_RULE) = List.replicate n longTunnel := by
  have hrule : ∀ r ∈ List.replicate n longTunnel, r = longTunnel :=
    fun r hr => List.eq_of_mem_replicate hr
  have hstorable : ∀ r ∈ List.replicate n longTunnel, Storable r := by
    intro r hr
    rw [hrule r hr]
    exact longTunnel_rule.1.toStorable
  have hne : List.replicate n longTunnel ≠ [] := by
    rw [Ne, List.replicate_eq_nil_iff]
    exact hn
  rw [longTunnels, if_pos rfl, rulesOf, Option.getD_some]
  exact storedRules_joinRules (fun r hr => (hstorable r hr).free) (joinRules_ne hne hstorable)

/-- The tunnels are among those that are converted alone. -/
theorem longTunnels_alone {n : ℕ} (hn : n ≠ 0) (new : List UInt8) (hnew : new.length = RULE_LEN) :
    ∀ r ∈ rulesOf (longTunnels n IPSEC_RULE), Rule175 r ∧
      ConvertsAlone clean new (longTunnels n) r (ipsecUp r) ∧ (ipsecUp r).len < RULE_LEN := by
  obtain ⟨hrule, hfits, hlen, -⟩ := longTunnel_rule
  intro r hr
  rw [longTunnels_rules hn] at hr
  rw [List.eq_of_mem_replicate hr]
  refine ⟨hrule, convertsAlone_of clean _ hrule hnew hfits ?_, ipsecUp_len hfits⟩
  rw [hlen]
  decide

theorem usedLen_replicate (n k : ℕ) (r : CStr) :
    usedLen (List.replicate n r) k = min k n * (ipsecUp r).len := by
  rw [usedLen, List.take_replicate, List.map_replicate, List.sum_replicate_nat]

/-- There is room for two rules. -/
theorem hasRoom_two {r : CStr} (hlen : r.len < 400) (hup : (ipsecUp r).len < 400) {i : ℕ}
    (hi : i < 2) : HasRoom (List.replicate 2 r) i := by
  have hsizes : RULE_LEN = 1024 ∧ EZPLIB_BUF_LEN = 8192 := ⟨rfl, rfl⟩
  have hnone : total ruleSize (mapFirst 0 ipsecUp (List.replicate 2 r)) =
    r.len + 1 + (r.len + 1 + 0) := rfl
  have hone : total ruleSize (mapFirst 1 ipsecUp (List.replicate 2 r)) =
    (ipsecUp r).len + 1 + (r.len + 1 + 0) := rfl
  have htwo : total ruleSize (mapFirst 2 ipsecUp (List.replicate 2 r)) =
    (ipsecUp r).len + 1 + ((ipsecUp r).len + 1 + 0) := rfl
  obtain rfl | rfl : i = 0 ∨ i = 1 := by omega
  · have hmin : min (0 + 1) 2 = 1 := rfl
    refine ⟨?_, hnone.trans_le (by omega), hone.trans_lt (by omega)⟩
    rw [usedLen_replicate, hmin]
    omega
  · have hmin : min (1 + 1) 2 = 2 := rfl
    refine ⟨?_, hone.trans_le (by omega), htwo.trans_lt (by omega)⟩
    rw [usedLen_replicate, hmin]
    omega

theorem convertsEach_two : ConvertsEach clean (List.replicate RULE_LEN 0) (longTunnels 2) := by
  have halone := longTunnels_alone (n := 2) (by decide) (List.replicate RULE_LEN 0)
    List.length_replicate
  apply (convertsEach_iff clean (List.replicate RULE_LEN 0) (longTunnels 2) List.length_replicate
    (fun r hr => (halone r hr).1) fun r hr => ⟨_, (halone r hr).2⟩).mpr
  intro i _ hi
  obtain ⟨-, -, hlen, hup⟩ := longTunnel_rule
  rw [longTunnels_rules (by decide)] at hi ⊢
  exact hasRoom_two (by rw [hlen]; decide) (by rw [hup]; decide) hi

/-- The third one is cut. -/
theorem thirdTunnel_cut : (∀ r ∈ rulesOf (longTunnels 3 IPSEC_RULE), Rule175 r ∧
    ∃ t, ConvertsAlone clean (List.replicate RULE_LEN 0) (longTunnels 3) r t ∧ t.len < RULE_LEN) ∧
    ¬ ConvertsEach clean (List.replicate RULE_LEN 0) (longTunnels 3) := by
  have halone := longTunnels_alone (n := 3) (by decide) (List.replicate RULE_LEN 0)
    List.length_replicate
  refine ⟨fun r hr => ⟨(halone r hr).1, _, (halone r hr).2⟩, fun h => ?_⟩
  have hrounds : 2 < ipsecRounds (longTunnels 3) := by decide +kernel
  have hindex : 2 < (rulesOf (longTunnels 3 IPSEC_RULE)).length := by
    rw [longTunnels_rules (by decide)]
    decide
  have hroom := (h.room List.length_replicate (fun r hr => (halone r hr).1)
    (fun r hr => (halone r hr).2.1) hrounds hindex).new
  rw [longTunnels_rules (by decide), usedLen_replicate, longTunnel_rule.2.2.2] at hroom
  exact absurd hroom (by decide)

end EzpFirmware.UserNvram
