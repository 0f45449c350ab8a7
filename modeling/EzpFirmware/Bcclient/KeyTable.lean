import Mathlib.Data.List.FinRange
import Mathlib.Data.Vector.Basic
import EzpFirmware.Lib.Ageing

/-! # The key table

Sixteen entries with the key of a client each, looked up by the first six bytes
of a packet. An entry is free, expired or in use only by the time of its last
refresh, which every operation may move. The table is the map whose entries
age: a session of an id is found exactly as long as it lives.
-/
namespace EzpFirmware.Bcclient
open Lib Lib.Ageing

def MAX_CONCURRENT_CLIENTS : ℕ := 16

def KEY_LENGTH32 : ℕ := 4

def KEY_TABLE_AGING_SEC : ℤ := 3600

/-- The key of a session. -/
abbrev Key := Vector UInt32 KEY_LENGTH32

/-- `struct timeval`. -/
structure Timeval where
  tvSec : ℤ
  tvUsec : ℤ
  deriving DecidableEq

/-- `KEY_TYPE`. -/
structure KeyType where
  refreshTime : Timeval
  macHash : UInt64
  key : Key
  deriving DecidableEq

/-- `FINDER_key_list`. -/
abbrev KeyList := Fin MAX_CONCURRENT_CLIENTS → KeyType

/-- The test for an entry that has expired. -/
def KeyType.Aged (tv : Timeval) (e : KeyType) : Prop :=
  tv.tvSec > e.refreshTime.tvSec + KEY_TABLE_AGING_SEC

instance (tv : Timeval) (e : KeyType) : Decidable (e.Aged tv) :=
  inferInstanceAs (Decidable (_ > _))

/-- The first entry of the list with a property. -/
def firstEntry (p : Fin MAX_CONCURRENT_CLIENTS → Prop) [DecidablePred p] :
    Option (Fin MAX_CONCURRENT_CLIENTS) :=
  (List.finRange MAX_CONCURRENT_CLIENTS).find? fun i => p i

/-- `KeyTableInit`. -/
def keyTableInit (t : KeyList) : KeyList := fun i => { t i with
  refreshTime := ⟨0, 0⟩
  macHash := 0 }

/-- `GetKeyByPacket`: the entry it points to, and the list. -/
def getKeyByPacket (tv : Timeval) (srcMac : UInt64) (t : KeyList) :
    Option (Fin MAX_CONCURRENT_CLIENTS) × KeyList :=
  match firstEntry fun i => ¬ (t i).Aged tv ∧ (t i).macHash = srcMac with
  | some i => (some i, Function.update t i { t i with refreshTime := tv })
  | none => (none, t)

/-- `GetNewKeyByPacket`, with the key that `get_16byte_key` would give. -/
def getNewKeyByPacket (tv : Timeval) (fresh : Key) (srcMac : UInt64) (t : KeyList) :
    Option (Fin MAX_CONCURRENT_CLIENTS) × KeyList :=
  match firstEntry fun i => (t i).macHash = srcMac with
  | some i =>
    (some i, Function.update t i { t i with
      key := if (t i).Aged tv then fresh else (t i).key
      refreshTime := tv })
  | none =>
    match firstEntry fun i => (t i).Aged tv with
    | some i => (some i, Function.update t i ⟨tv, srcMac, fresh⟩)
    | none => (none, t)

/-- `ExpireKeyByPacket`. -/
def expireKeyByPacket (srcMac : UInt64) (t : KeyList) : KeyList :=
  match firstEntry fun i => (t i).macHash = srcMac with
  | some i => Function.update t i { t i with refreshTime := ⟨0, 0⟩ }
  | none => t

section
variable {p : Fin MAX_CONCURRENT_CLIENTS → Prop} [DecidablePred p]

theorem firstEntry_some {i : Fin MAX_CONCURRENT_CLIENTS} (h : firstEntry p = some i) : p i := by
  simpa using List.find?_some h

theorem firstEntry_none (h : firstEntry p = none) (i : Fin MAX_CONCURRENT_CLIENTS) : ¬ p i := by
  simpa using List.find?_eq_none.mp h i (List.mem_finRange i)

/-- The entry that is found is the first one with the property. -/
theorem firstEntry_iff {i : Fin MAX_CONCURRENT_CLIENTS} :
    firstEntry p = some i ↔ p i ∧ ∀ j < i, ¬ p j := by
  rw [firstEntry, List.find?_eq_some_iff_getElem]
  simp only [decide_eq_true_eq, List.getElem_finRange, Bool.not_eq_eq_eq_not, Bool.not_true,
    decide_eq_false_iff_not]
  refine and_congr_right fun _ => ⟨?_, fun h => ?_⟩
  · rintro ⟨n, hn, rfl, hbefore⟩ j hj
    exact hbefore j hj
  · refine ⟨i, by simp, by simp, fun j hj => ?_⟩
    exact h ⟨j, hj.trans i.isLt⟩ hj

end

section
variable (tv : Timeval) (fresh : Key) (m : UInt64) (t : KeyList)

/-- A lookup finds an entry of the id in use, and refreshes it, or there is none. -/
theorem getKeyByPacket_cases :
    (∃ i, ¬ (t i).Aged tv ∧ (t i).macHash = m ∧
      getKeyByPacket tv m t = (some i, Function.update t i { t i with refreshTime := tv })) ∨
    (∀ i, (t i).macHash = m → (t i).Aged tv) ∧ getKeyByPacket tv m t = (none, t) := by
  unfold getKeyByPacket
  split
  case h_1 i hi => exact .inl ⟨i, (firstEntry_some hi).1, (firstEntry_some hi).2, rfl⟩
  case h_2 hi =>
    exact .inr ⟨fun i hm => not_not.mp fun ha => firstEntry_none hi i ⟨ha, hm⟩, rfl⟩

/-- A request takes the entry of the id, or else one that has aged, or there is none. The key is
new exactly if the entry had aged. -/
theorem getNewKeyByPacket_cases :
    (∃ i, ((t i).macHash = m ∨ (∀ j, (t j).macHash ≠ m) ∧ (t i).Aged tv) ∧
      getNewKeyByPacket tv fresh m t =
        (some i, Function.update t i ⟨tv, m, if (t i).Aged tv then fresh else (t i).key⟩)) ∨
    (∀ i, (t i).macHash ≠ m ∧ ¬ (t i).Aged tv) ∧ getNewKeyByPacket tv fresh m t = (none, t) := by
  unfold getNewKeyByPacket
  split
  case h_1 i hi =>
    have hm : (t i).macHash = m := firstEntry_some hi
    exact .inl ⟨i, .inl hm, by rw [← hm]⟩
  case h_2 hi =>
    have hother := firstEntry_none hi
    split
    case h_1 i hj =>
      have ha : (t i).Aged tv := firstEntry_some hj
      exact .inl ⟨i, .inr ⟨hother, ha⟩, by rw [if_pos ha]⟩
    case h_2 hj => exact .inr ⟨fun i => ⟨hother i, firstEntry_none hj i⟩, rfl⟩

theorem expireKeyByPacket_cases :
    (∃ i, (t i).macHash = m ∧
      expireKeyByPacket m t = Function.update t i { t i with refreshTime := ⟨0, 0⟩ }) ∨
    (∀ i, (t i).macHash ≠ m) ∧ expireKeyByPacket m t = t := by
  unfold expireKeyByPacket
  split
  case h_1 i hi => exact .inl ⟨i, firstEntry_some hi, rfl⟩
  case h_2 hi => exact .inr ⟨firstEntry_none hi, rfl⟩

end

/-- An entry that is rewritten for its own id stays with it. -/
theorem update_macHash {t : KeyList} {i : Fin MAX_CONCURRENT_CLIENTS} {e : KeyType}
    (h : e.macHash = (t i).macHash) (j : Fin MAX_CONCURRENT_CLIENTS) :
    (Function.update t i e j).macHash = (t j).macHash := by
  rcases eq_or_ne j i with rfl | hji
  · rw [Function.update_self, h]
  · rw [Function.update_of_ne hji]

/-! ## Runs -/

/-- A call: of `GetNewKeyByPacket` (a start), `GetKeyByPacket` (a touch) or `ExpireKeyByPacket`. -/
structure Call where
  op : Op
  srcMac : UInt64
  tv : Timeval
  /-- What `get_16byte_key` gives, if it is called. -/
  fresh : Key

/-- What a call returns, and the list after it. -/
def Call.apply (c : Call) (t : KeyList) : Option (Fin MAX_CONCURRENT_CLIENTS) × KeyList :=
  match c.op with
  | .start => getNewKeyByPacket c.tv c.fresh c.srcMac t
  | .touch => getKeyByPacket c.tv c.srcMac t
  | .stop => (none, expireKeyByPacket c.srcMac t)

/-- The call as an event. -/
def Call.event (c : Call) (t : KeyList) : Event UInt64 Key :=
  ⟨c.op, c.srcMac, c.tv.tvSec, c.fresh, (c.apply t).1.isSome⟩

/-- Calls with ids that are not zero and a clock that does not go back, from the initialised list
on: their history, the list and the time of the last one. -/
inductive Run (t₀ : KeyList) : List (Event UInt64 Key) → KeyList → ℤ → Prop where
  | init {now : ℤ} (h : KEY_TABLE_AGING_SEC < now) : Run t₀ [] (keyTableInit t₀) now
  | call {h : List (Event UInt64 Key)} {t : KeyList} {now : ℤ} (hrun : Run t₀ h t now) (c : Call)
    (hmac : c.srcMac ≠ 0) (hclock : now ≤ c.tv.tvSec) :
    Run t₀ (c.event t :: h) (c.apply t).2 c.tv.tvSec

/-- The entries in use are the sessions that live. -/
structure KeyList.Holds (t : KeyList) (h : List (Event UInt64 Key)) (last : ℤ) : Prop where
  started : KEY_TABLE_AGING_SEC < last
  unique : ∀ i j, (t i).macHash = (t j).macHash → (t i).macHash ≠ 0 → i = j
  live : ∀ i now, last ≤ now → now ≤ (t i).refreshTime.tvSec + KEY_TABLE_AGING_SEC →
    (t i).macHash ≠ 0 ∧ Carries KEY_TABLE_AGING_SEC h (t i).macHash now (t i).key
  held : ∀ m now k, last ≤ now → Carries KEY_TABLE_AGING_SEC h m now k →
    ∃ i, (t i).macHash = m ∧ (t i).key = k ∧
      now ≤ (t i).refreshTime.tvSec + KEY_TABLE_AGING_SEC

theorem keyTableInit_holds (t₀ : KeyList) {now : ℤ} (h : KEY_TABLE_AGING_SEC < now) :
    (keyTableInit t₀).Holds [] now := by
  refine ⟨h, fun i j _ h0 => absurd rfl h0, fun i now' hlast hlive => ?_, fun m now' k _ hc => ?_⟩
  · simp only [keyTableInit] at hlive
    omega
  · exact absurd hc not_since_nil

section
variable {t : KeyList} {h : List (Event UInt64 Key)} {last : ℤ} (hold : t.Holds h last)
  {tv : Timeval} (hclock : last ≤ tv.tvSec) {m : UInt64}
include hold hclock

/-- An entry that has not aged carries the session of its id. -/
theorem KeyList.Holds.carries {i : Fin MAX_CONCURRENT_CLIENTS} (ha : ¬ (t i).Aged tv) :
    Carries KEY_TABLE_AGING_SEC h (t i).macHash tv.tvSec (t i).key :=
  (hold.live i tv.tvSec hclock (not_lt.mp ha)).2

/-- The session of an id is in an entry that has not aged. -/
theorem KeyList.Holds.entry {k : Key} (hc : Carries KEY_TABLE_AGING_SEC h m tv.tvSec k) :
    ∃ i, (t i).macHash = m ∧ (t i).key = k ∧ ¬ (t i).Aged tv := by
  rcases hold.held m tv.tvSec k hclock hc with ⟨i, hm, hk, hle⟩
  exact ⟨i, hm, hk, not_lt.mpr hle⟩

/-- An entry of an id that has no session has aged. -/
theorem KeyList.Holds.alive_iff {i : Fin MAX_CONCURRENT_CLIENTS} (hi : (t i).macHash ≠ 0) :
    Alive KEY_TABLE_AGING_SEC h (t i).macHash tv.tvSec ↔ ¬ (t i).Aged tv := by
  constructor
  · intro ha
    rcases ha.carries with ⟨k, hk⟩
    rcases hold.entry hclock hk with ⟨j, hj, -, haged⟩
    have hji : j = i := hold.unique j i hj (hj ▸ hi)
    exact hji ▸ haged
  · exact fun ha => (hold.carries hclock ha).alive

/-- The key in an entry that has not aged is the one of the session. -/
theorem KeyList.Holds.carries_iff {i : Fin MAX_CONCURRENT_CLIENTS} (ha : ¬ (t i).Aged tv) {k : Key} :
    Carries KEY_TABLE_AGING_SEC h (t i).macHash tv.tvSec k ↔ k = (t i).key := by
  constructor
  · intro hc
    rcases hold.entry hclock hc with ⟨j, hj, hk, -⟩
    have hi : (t i).macHash ≠ 0 := (hold.live i tv.tvSec hclock (not_lt.mp ha)).1
    have hji : j = i := hold.unique j i hj (hj ▸ hi)
    exact hk ▸ hji ▸ rfl
  · rintro rfl
    exact hold.carries hclock ha

/-- Without an entry in use, an id has no session. -/
theorem KeyList.Holds.not_carries (hm : ∀ i, (t i).macHash = m → (t i).Aged tv) {k : Key} :
    ¬ Carries KEY_TABLE_AGING_SEC h m tv.tvSec k := by
  intro hc
  rcases hold.entry hclock hc with ⟨i, hi, -, ha⟩
  exact ha (hm i hi)

/-- The entry of an id, or one that has aged, is taken for a session of the id. -/
theorem KeyList.Holds.refresh (hm : m ≠ 0) {i : Fin MAX_CONCURRENT_CLIENTS}
    (htake : (t i).macHash = m ∨ (∀ j, (t j).macHash ≠ m) ∧ (t i).Aged tv)
    {x : Event UInt64 Key} (hx : x.id = m) {k : Key}
    (hk : ∀ now k', Carries KEY_TABLE_AGING_SEC (x :: h) m now k' ↔
      k' = k ∧ now ≤ tv.tvSec + KEY_TABLE_AGING_SEC) :
    KeyList.Holds (Function.update t i ⟨tv, m, k⟩) (x :: h) tv.tvSec := by
  have hothers : ∀ j, j ≠ i → (t j).macHash ≠ m := by
    intro j hji hj
    rcases htake with hi | ⟨hnone, -⟩
    · exact hji (hold.unique j i (hj.trans hi.symm) (hj ▸ hm))
    · exact hnone j hj
  constructor
  · exact lt_of_lt_of_le hold.started hclock
  · intro j l hjl h0
    rcases eq_or_ne j i with rfl | hji <;> rcases eq_or_ne l j with rfl | hlj
    · rfl
    · simp only [Function.update_self, Function.update_of_ne hlj] at hjl
      exact absurd hjl.symm (hothers l hlj)
    · rfl
    · rw [Function.update_of_ne hji] at hjl h0
      rcases eq_or_ne l i with rfl | hli
      · rw [Function.update_self] at hjl
        exact absurd hjl (hothers j hji)
      · rw [Function.update_of_ne hli] at hjl
        exact hold.unique j l hjl h0
  · intro j now hnow hlive
    rcases eq_or_ne j i with rfl | hji
    · rw [Function.update_self] at hlive ⊢
      exact ⟨hm, (hk now k).mpr ⟨rfl, hlive⟩⟩
    · rw [Function.update_of_ne hji] at hlive ⊢
      have hold' := hold.live j now (hclock.trans hnow) hlive
      refine ⟨hold'.1, (since_other ?_).mpr hold'.2⟩
      rw [hx]
      exact (hothers j hji).symm
  · intro m' now k' hnow hc
    rcases eq_or_ne m' m with rfl | hm'
    · obtain ⟨rfl, hle⟩ := (hk now k').mp hc
      exact ⟨i, by rw [Function.update_self], by rw [Function.update_self],
        by rw [Function.update_self]; exact hle⟩
    · have hc' := (since_other (by rw [hx]; exact hm'.symm)).mp hc
      rcases hold.held m' now k' (hclock.trans hnow) hc' with ⟨j, hj, hkj, hle⟩
      have hji : j ≠ i := by
        rintro rfl
        rcases htake with hi | ⟨-, ha⟩
        · exact hm' (hj.symm.trans hi)
        · rw [KeyType.Aged] at ha
          omega
      exact ⟨j, by rw [Function.update_of_ne hji]; exact hj,
        by rw [Function.update_of_ne hji]; exact hkj, by rw [Function.update_of_ne hji]; exact hle⟩

/-- An event that leaves no session to an id without an entry in use changes nothing. -/
theorem KeyList.Holds.skip (hm : ∀ i, (t i).macHash = m → (t i).Aged tv)
    {x : Event UInt64 Key} (hx : x.id = m)
    (hk : ∀ now k, ¬ Carries KEY_TABLE_AGING_SEC (x :: h) m now k) :
    t.Holds (x :: h) tv.tvSec := by
  constructor
  · exact lt_of_lt_of_le hold.started hclock
  · exact hold.unique
  · intro i now hnow hlive
    have hold' := hold.live i now (hclock.trans hnow) hlive
    refine ⟨hold'.1, (since_other ?_).mpr hold'.2⟩
    rw [hx]
    intro hi
    have ha := hm i hi.symm
    rw [KeyType.Aged] at ha
    omega
  · intro m' now k hnow hc
    have hne : x.id ≠ m' := by
      rw [hx]
      rintro rfl
      exact hk now k hc
    exact hold.held m' now k (hclock.trans hnow) ((since_other hne).mp hc)

/-- One step: every call keeps the table what its history says. -/
theorem KeyList.Holds.getKey (hm : m ≠ 0) {x : Event UInt64 Key} (hop : x.op = .touch)
    (hx : x.id = m) (htime : x.time = tv.tvSec) :
    (getKeyByPacket tv m t).2.Holds (x :: h) tv.tvSec := by
  rcases getKeyByPacket_cases tv m t with ⟨i, ha, hi, heq⟩ | ⟨hnone, heq⟩ <;> rw [heq]
  · have hentry : { t i with refreshTime := tv } = ⟨tv, m, (t i).key⟩ := by rw [← hi]
    rw [hentry]
    refine hold.refresh hclock hm (.inl hi) hx fun now k' => ?_
    rw [Carries, since_touch hx hop, htime, ← hi]
    exact and_congr_left' (hold.carries_iff hclock ha)
  · refine hold.skip hclock hnone hx fun now k hc => ?_
    rw [Carries, since_touch hx hop, htime] at hc
    exact hold.not_carries hclock hnone hc.1

theorem KeyList.Holds.getNewKey (hm : m ≠ 0) {fresh : Key} {x : Event UInt64 Key}
    (hop : x.op = .start) (hx : x.id = m) (htime : x.time = tv.tvSec) (hvalue : x.value = fresh)
    (hgranted : x.granted = (getNewKeyByPacket tv fresh m t).1.isSome) :
    (getNewKeyByPacket tv fresh m t).2.Holds (x :: h) tv.tvSec := by
  have hcarries (now : ℤ) (k : Key) : Carries KEY_TABLE_AGING_SEC (x :: h) m now k ↔
      (x.granted = true ∧ ¬ Alive KEY_TABLE_AGING_SEC h m tv.tvSec ∧ fresh = k ∨
        Carries KEY_TABLE_AGING_SEC h m tv.tvSec k) ∧ now ≤ tv.tvSec + KEY_TABLE_AGING_SEC := by
    rw [Carries, since_start hx hop, htime, hvalue]
    rfl
  rcases getNewKeyByPacket_cases tv fresh m t with ⟨i, htake, heq⟩ | ⟨hnone, heq⟩ <;>
    rw [heq] at hgranted ⊢
  · refine hold.refresh hclock hm htake hx fun now k => ?_
    rw [hcarries]
    refine and_congr_left' ?_
    by_cases ha : (t i).Aged tv
    · -- Neither the entry nor any other one carries a session of the id.
      have hdead : ∀ j, (t j).macHash = m → (t j).Aged tv := by
        intro j hj
        rcases htake with hi | ⟨hnone, -⟩
        · exact hold.unique j i (hj.trans hi.symm) (hj ▸ hm) ▸ ha
        · exact absurd hj (hnone j)
      have hnot : ¬ Alive KEY_TABLE_AGING_SEC h m tv.tvSec := by
        intro halive
        rcases halive.carries with ⟨k', hk'⟩
        exact hold.not_carries hclock hdead hk'
      simp only [hgranted, hnot, not_false_eq_true, true_and, if_pos ha, Option.isSome_some,
        hold.not_carries hclock hdead, or_false]
      exact eq_comm
    · have hi : (t i).macHash = m := htake.resolve_right fun h => ha h.2
      have halive := (hold.carries hclock ha).alive
      rw [hi] at halive
      rw [← hi] at halive ⊢
      simp only [halive, not_true_eq_false, false_and, and_false, false_or, if_neg ha]
      exact hold.carries_iff hclock ha
  · refine hold.skip hclock (fun i hi => absurd hi (hnone i).1) hx fun now k hc => ?_
    rw [hcarries] at hc
    rcases hc.1 with ⟨hg, -⟩ | hc
    · rw [hgranted] at hg
      cases hg
    · exact hold.not_carries hclock (fun i hi => absurd hi (hnone i).1) hc

theorem KeyList.Holds.expireKey {x : Event UInt64 Key} (hop : x.op = .stop) (hx : x.id = m) :
    (expireKeyByPacket m t).Holds (x :: h) tv.tvSec := by
  have hnot (now : ℤ) (k : Key) : ¬ Carries KEY_TABLE_AGING_SEC (x :: h) m now k :=
    not_since_stop hx hop
  rcases expireKeyByPacket_cases m t with ⟨i, hi, heq⟩ | ⟨hnone, heq⟩ <;> rw [heq]
  · have hmac := update_macHash (t := t) (i := i) (e := { t i with refreshTime := ⟨0, 0⟩ }) rfl
    have hstart := hold.started
    constructor
    · exact lt_of_lt_of_le hold.started hclock
    · intro j l hjl h0
      rw [hmac] at hjl h0
      rw [hmac] at hjl
      exact hold.unique j l hjl h0
    · intro j now hnow hlive
      rcases eq_or_ne j i with rfl | hji
      · rw [Function.update_self] at hlive
        dsimp only at hlive
        omega
      · rw [Function.update_of_ne hji] at hlive ⊢
        have hold' := hold.live j now (hclock.trans hnow) hlive
        refine ⟨hold'.1, (since_other ?_).mpr hold'.2⟩
        rw [hx, ← hi]
        intro hij
        exact hji (hold.unique i j hij (hij ▸ hold'.1)).symm
    · intro m' now k hnow hc
      have hne : x.id ≠ m' := by
        rw [hx]
        rintro rfl
        exact hnot now k hc
      rcases hold.held m' now k (hclock.trans hnow) ((since_other hne).mp hc) with ⟨j, hj, hkj, hle⟩
      have hji : j ≠ i := by
        rintro rfl
        exact hne (hx.trans (hi.symm.trans hj))
      exact ⟨j, by rw [Function.update_of_ne hji]; exact hj,
        by rw [Function.update_of_ne hji]; exact hkj, by rw [Function.update_of_ne hji]; exact hle⟩
  · have hskip := hold.skip hclock (fun i hi => absurd hi (hnone i)) hx hnot
    exact hskip

end

/-- Along every run, the table holds what the history says. -/
theorem Run.holds {t₀ t : KeyList} {h : List (Event UInt64 Key)} {now : ℤ} (hrun : Run t₀ h t now) :
    t.Holds h now := by
  induction hrun with
  | init h => exact keyTableInit_holds t₀ h
  | @call h t now hrun c hmac hclock ih =>
    cases hop : c.op with
    | start =>
      have hstep : (getNewKeyByPacket c.tv c.fresh c.srcMac t).2.Holds (c.event t :: h) c.tv.tvSec :=
        ih.getNewKey hclock hmac hop rfl rfl rfl (by simp [Call.event, Call.apply, hop])
      simpa [Call.apply, hop] using hstep
    | touch =>
      have hstep := ih.getKey hclock hmac (x := c.event t) hop rfl rfl
      simpa [Call.apply, hop] using hstep
    | stop =>
      have hstep := ih.expireKey hclock (m := c.srcMac) (x := c.event t) hop rfl
      simpa [Call.apply, hop] using hstep

/-! ## The map that ages -/

/-- The table is the map of the sessions that a history leaves, from `last` on. -/
structure RefinesAgeing (h : List (Event UInt64 Key)) (t : KeyList) (last : ℤ) : Prop where
  /-- No id is held by two entries. -/
  distinct : ∀ i j, i ≠ j → (t i).macHash ≠ 0 → (t i).macHash ≠ (t j).macHash
  /-- An entry in use stays with its id. -/
  kept : ∀ (c : Call) i, c.srcMac ≠ 0 → last ≤ c.tv.tvSec →
    Alive KEY_TABLE_AGING_SEC h (t i).macHash c.tv.tvSec →
      ((c.apply t).2 i).macHash = (t i).macHash
  /-- A key is found exactly for a session that lives. -/
  found : ∀ (tv : Timeval) m, m ≠ 0 → last ≤ tv.tvSec →
    ((getKeyByPacket tv m t).1.isSome ↔ Alive KEY_TABLE_AGING_SEC h m tv.tvSec)
  /-- It is the key of when the session began. -/
  key : ∀ (tv : Timeval) m i, m ≠ 0 → last ≤ tv.tvSec → (getKeyByPacket tv m t).1 = some i →
    Carries KEY_TABLE_AGING_SEC h m tv.tvSec ((getKeyByPacket tv m t).2 i).key
  /-- Only a table that is full of other sessions gives no new key. -/
  full : ∀ (tv : Timeval) fresh m, m ≠ 0 → last ≤ tv.tvSec →
    (getNewKeyByPacket tv fresh m t).1 = none →
      ∀ i, (t i).macHash ≠ m ∧ Alive KEY_TABLE_AGING_SEC h (t i).macHash tv.tvSec

section
variable {t : KeyList} {h : List (Event UInt64 Key)} {last : ℤ} (hold : t.Holds h last)
  {tv : Timeval} (hclock : last ≤ tv.tvSec)
include hold hclock

/-- No session has the id zero. -/
theorem KeyList.Holds.id_ne_zero {m : UInt64} (ha : Alive KEY_TABLE_AGING_SEC h m tv.tvSec) :
    m ≠ 0 := by
  rcases ha.carries with ⟨k, hk⟩
  rcases hold.entry hclock hk with ⟨i, hi, -, haged⟩
  exact hi ▸ (hold.live i tv.tvSec hclock (not_lt.mp haged)).1

/-- A call takes away no entry in use. -/
theorem KeyList.Holds.kept {c : Call} (htv : c.tv = tv) {i : Fin MAX_CONCURRENT_CLIENTS}
    (ha : Alive KEY_TABLE_AGING_SEC h (t i).macHash tv.tvSec) :
    ((c.apply t).2 i).macHash = (t i).macHash := by
  have hi : ¬ (t i).Aged tv := (hold.alive_iff hclock (hold.id_ne_zero hclock ha)).mp ha
  subst htv
  unfold Call.apply
  cases c.op with
  | start =>
    dsimp only
    rcases getNewKeyByPacket_cases c.tv c.fresh c.srcMac t with ⟨j, htake, heq⟩ | ⟨-, heq⟩ <;>
      rw [heq]
    dsimp only
    rcases eq_or_ne i j with rfl | hij
    · rw [Function.update_self]
      exact (htake.resolve_right fun h => hi h.2).symm
    · rw [Function.update_of_ne hij]
  | touch =>
    dsimp only
    rcases getKeyByPacket_cases c.tv c.srcMac t with ⟨j, -, -, heq⟩ | ⟨-, heq⟩ <;> rw [heq]
    exact update_macHash (by rfl) i
  | stop =>
    dsimp only
    rcases expireKeyByPacket_cases c.srcMac t with ⟨j, -, heq⟩ | ⟨-, heq⟩ <;> rw [heq]
    exact update_macHash (by rfl) i

theorem KeyList.Holds.found (m : UInt64) :
    (getKeyByPacket tv m t).1.isSome ↔ Alive KEY_TABLE_AGING_SEC h m tv.tvSec := by
  rcases getKeyByPacket_cases tv m t with ⟨i, ha, rfl, heq⟩ | ⟨hnone, heq⟩ <;> rw [heq]
  · exact iff_of_true rfl (hold.carries hclock ha).alive
  · refine iff_of_false (by simp) fun halive => ?_
    rcases halive.carries with ⟨k, hk⟩
    exact hold.not_carries hclock hnone hk

theorem KeyList.Holds.key {m : UInt64} {i : Fin MAX_CONCURRENT_CLIENTS}
    (hi : (getKeyByPacket tv m t).1 = some i) :
    Carries KEY_TABLE_AGING_SEC h m tv.tvSec ((getKeyByPacket tv m t).2 i).key := by
  rcases getKeyByPacket_cases tv m t with ⟨j, ha, rfl, heq⟩ | ⟨-, heq⟩ <;> rw [heq] at hi ⊢
  · obtain rfl : j = i := Option.some.inj hi
    dsimp only
    rw [Function.update_self]
    exact hold.carries hclock ha
  · cases hi

theorem KeyList.Holds.full {fresh : Key} {m : UInt64}
    (hnone : (getNewKeyByPacket tv fresh m t).1 = none) (i : Fin MAX_CONCURRENT_CLIENTS) :
    (t i).macHash ≠ m ∧ Alive KEY_TABLE_AGING_SEC h (t i).macHash tv.tvSec := by
  rcases getNewKeyByPacket_cases tv fresh m t with ⟨j, -, heq⟩ | ⟨hall, -⟩
  · rw [heq] at hnone
    cases hnone
  · exact ⟨(hall i).1, (hold.carries hclock (hall i).2).alive⟩

end

/-- The key table is the map of the sessions that age. -/
theorem keyTable_refines {t₀ t : KeyList} {h : List (Event UInt64 Key)} {last : ℤ}
    (hrun : Run t₀ h t last) : RefinesAgeing h t last where
  distinct i j hij h0 heq := hij (hrun.holds.unique i j heq h0)
  kept _ _ _ hclock ha := hrun.holds.kept hclock rfl ha
  found _ m _ hclock := hrun.holds.found hclock m
  key _ _ _ _ hclock hi := hrun.holds.key hclock hi
  full _ _ _ _ hclock hnone := hrun.holds.full hclock hnone

/-- Four random words. -/
abbrev randomKey (a b c d : UInt32) : Key := #v[a, b, c, d]

/-- The list before it is initialised. -/
def blankList : KeyList := fun _ => ⟨⟨0, 0⟩, 0, randomKey 0 0 0 0⟩

/-- A key for 7 at the second 3601 and one for 8 later, a use of the first, and its end. -/
def firstRequest : Call := ⟨.start, 7, ⟨3601, 0⟩, randomKey 1 2 3 4⟩

def secondRequest : Call := ⟨.start, 8, ⟨3700, 0⟩, randomKey 5 6 7 8⟩

def firstUse : Call := ⟨.touch, 7, ⟨7000, 0⟩, randomKey 0 0 0 0⟩

def firstEnd : Call := ⟨.stop, 7, ⟨7001, 0⟩, randomKey 0 0 0 0⟩

/-- Four calls for two ids. -/
theorem keyTable_refines_four :
    let t := keyTableInit blankList
    let t₁ := (firstRequest.apply t).2
    let t₂ := (secondRequest.apply t₁).2
    let t₃ := (firstUse.apply t₂).2
    RefinesAgeing [firstEnd.event t₃, firstUse.event t₂, secondRequest.event t₁, firstRequest.event t]
      (firstEnd.apply t₃).2 7001 := by
  intro t t₁ t₂ t₃
  have hfirst := (@Run.init blankList 3601 (by decide)).call firstRequest (by decide) (by decide)
  have hsecond := hfirst.call secondRequest (by decide) (by decide)
  have huse := hsecond.call firstUse (by decide) (by decide)
  exact keyTable_refines (huse.call firstEnd (by decide) (by decide))

end EzpFirmware.Bcclient
