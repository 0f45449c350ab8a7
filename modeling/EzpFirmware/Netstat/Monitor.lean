import EzpFirmware.Lib.Hysteresis
import Mathlib.Data.List.Chain
import Mathlib.Data.Int.Order.Basic
import Mathlib.Algebra.Order.Group.Int

/-! # The monitor of free memory

One of four states is set by the free memory, three of which hold on for a while
above their limit. A state that is entered limits the sessions and kills or restarts services.
-/
namespace EzpFirmware.Netstat
open Lib

/-- `bw_limit_low`, `bw_limit_med` and `bw_limit_high`. -/
structure BwLimits where
  low : ℤ := 3500
  med : ℤ := 5000
  high : ℤ := 6500

/-- The limits are given in order. -/
structure BwLimits.Ordered (limits : BwLimits) : Prop where
  low_le_med : limits.low ≤ limits.med
  med_le_high : limits.med ≤ limits.high

/-- What one turn reads. There is no free memory without a pipe and no count without the file. -/
structure Sample where
  freemem : Option ℤ
  nfConntrackCount : Option ℤ

def setConntrackMax (n : ℤ) : String :=
  s!"echo {n} > /proc/sys/net/netfilter/nf_conntrack_max"

def killWscd : String := "[ -n \"$(pidof wscd)\" ] && killall wscd"

def killLld2d : String := "[ -n \"$(pidof lld2d)\" ] && killall lld2d"

def startLldt : String := "[ -z \"$(pidof lld2d)\" ] && sh /etc/rc.common /etc/init.d/lldt start"

def smFast : String := "/sbin/sysctl -p /etc/session_manager/sm_fast"

/-- `monitor_conn_func`, with the commands that are run. -/
def monitorConnFunc (limits : BwLimits) (stat : ℕ) (sample : Sample) : ℕ × List String :=
  match sample.freemem with
  | none => (stat, [])
  | some freemem =>
    let newSessNum := sample.nfConntrackCount.getD 12000
    if freemem < limits.low ∨ (stat = 1 ∧ freemem < limits.low + 500) then
      if stat ≠ 1 then
        (1, [setConntrackMax newSessNum, killWscd, killLld2d, smFast])
      else (stat, [])
    else if freemem < limits.med ∨ (stat = 2 ∧ freemem < limits.med + 500) then
      if stat ≠ 2 then
        let newSessNum := if newSessNum + 1000 < 12000 then newSessNum + 1000 else 12000
        (2, [setConntrackMax newSessNum, killWscd, killLld2d, smFast])
      else (stat, [])
    else if freemem < limits.high ∨ (stat = 3 ∧ freemem < limits.high + 500) then
      if stat ≠ 3 then
        let newSessNum := if newSessNum + 3000 < 13000 then newSessNum + 3000 else 13000
        (3, [setConntrackMax newSessNum, killWscd, startLldt, smFast])
      else (stat, [])
    else if stat ≠ 0 then
      (0, ["echo $(nvram get ct_max) > /proc/sys/net/netfilter/nf_conntrack_max",
        "[ -z \"$(pidof wscd)\" ] && sh /etc/rc.common /etc/init.d/wps start",
        startLldt,
        "[ -z \"$(pidof goahead)\" ] && sh /etc/rc.common /etc/init.d/goahead start",
        "/sbin/sysctl -p /etc/session_manager/sm_slow"])
    else (stat, [])

/-- The turns of the loop in `main`, with the state behind each and its commands. -/
def mainLoop (limits : BwLimits) : ℕ → List Sample → List (ℕ × List String)
  | _, [] => []
  | stat, sample :: samples =>
    let turn := monitorConnFunc limits stat sample
    turn :: mainLoop limits turn.1 samples

/-- The state that `main` has come to. -/
def reached (limits : BwLimits) (samples : List Sample) : ℕ :=
  samples.foldl (fun stat sample => (monitorConnFunc limits stat sample).1) 0

/-- The states from one on. -/
def states (limits : BwLimits) (stat : ℕ) (samples : List Sample) : List ℕ :=
  stat :: (mainLoop limits stat samples).map Prod.fst

/-- The turns that run commands. -/
def actions (limits : BwLimits) (stat : ℕ) (samples : List Sample) : List (ℕ × List String) :=
  (mainLoop limits stat samples).filter fun turn => !turn.2.isEmpty

/-- How far a state is from having no memory left. -/
def level (stat : ℕ) : ℕ :=
  if stat = 1 then 0 else if stat = 2 then 1 else if stat = 3 then 2 else 3

/-- The state that the limits alone give. -/
def plainStat (limits : BwLimits) (freemem : ℤ) : ℕ :=
  if freemem < limits.low then 1
  else if freemem < limits.med then 2
  else if freemem < limits.high then 3
  else 0

/-! ## The states as levels with hysteresis -/

/-- The limits of the levels. -/
def bands (limits : BwLimits) (h : limits.Ordered) : Bands ℤ where
  count := 3
  limit i := if i = 0 then limits.low else if i = 1 then limits.med else limits.high
  band := 500
  limit_mono := by
    intro i j hij
    have hlow := h.low_le_med
    have hmed := h.med_le_high
    split_ifs <;> omega

variable {limits : BwLimits} {stat : ℕ} {sample : Sample} {samples : List Sample}

/-- What one turn makes of the state. -/
theorem monitorConnFunc_fst (limits : BwLimits) (stat : ℕ) (freemem : ℤ) (n : Option ℤ) :
    (monitorConnFunc limits stat ⟨some freemem, n⟩).1 =
      if freemem < limits.low ∨ (stat = 1 ∧ freemem < limits.low + 500) then 1
      else if freemem < limits.med ∨ (stat = 2 ∧ freemem < limits.med + 500) then 2
      else if freemem < limits.high ∨ (stat = 3 ∧ freemem < limits.high + 500) then 3
      else 0 := by
  simp only [monitorConnFunc]
  split_ifs <;> simp_all

theorem monitorConnFunc_le (h : stat ≤ 3) : (monitorConnFunc limits stat sample).1 ≤ 3 := by
  rcases sample with ⟨_ | freemem, n⟩
  · exact h
  · rw [monitorConnFunc_fst]
    split_ifs <;> omega

/-- A turn runs commands if and only if the state changes. -/
theorem monitorConnFunc_isEmpty :
    (monitorConnFunc limits stat sample).2 = [] ↔ (monitorConnFunc limits stat sample).1 = stat := by
  rcases sample with ⟨_ | freemem, n⟩
  · simp [monitorConnFunc]
  · simp only [monitorConnFunc]
    split_ifs <;> simp <;> omega

theorem level_injOn {a b : ℕ} (ha : a ≤ 3) (hb : b ≤ 3) (h : level a = level b) : a = b := by
  unfold level at h
  split_ifs at h <;> omega

theorem level_le (stat : ℕ) : level stat ≤ 3 := by
  unfold level
  split_ifs <;> omega

theorem holds_low (h : limits.Ordered) (freemem : ℤ) :
    (bands limits h).Holds (level stat) freemem 0 ↔
      freemem < limits.low ∨ (stat = 1 ∧ freemem < limits.low + 500) := by
  have hlevel : level stat = 0 ↔ stat = 1 := by
    unfold level
    split_ifs <;> simp_all
  rw [Bands.Holds, hlevel]
  rfl

theorem holds_med (h : limits.Ordered) (freemem : ℤ) :
    (bands limits h).Holds (level stat) freemem 1 ↔
      freemem < limits.med ∨ (stat = 2 ∧ freemem < limits.med + 500) := by
  have hlevel : level stat = 1 ↔ stat = 2 := by
    unfold level
    split_ifs <;> simp_all
  rw [Bands.Holds, hlevel]
  rfl

theorem holds_high (h : limits.Ordered) (freemem : ℤ) :
    (bands limits h).Holds (level stat) freemem 2 ↔
      freemem < limits.high ∨ (stat = 3 ∧ freemem < limits.high + 500) := by
  have hlevel : level stat = 2 ↔ stat = 3 := by
    unfold level
    split_ifs <;> simp_all
  rw [Bands.Holds, hlevel]
  rfl

/-- A turn takes the first level that the free memory belongs to. -/
theorem level_monitorConnFunc (h : limits.Ordered) (stat : ℕ) (freemem : ℤ) (n : Option ℤ) :
    level (monitorConnFunc limits stat ⟨some freemem, n⟩).1 =
      (bands limits h).next (level stat) freemem := by
  rw [monitorConnFunc_fst, eq_comm]
  simp only [← holds_low h, ← holds_med h, ← holds_high h]
  split_ifs with hlow hmed hhigh
  · exact Bands.next_eq (fun j hj => absurd hj (Nat.not_lt_zero j)) (Nat.zero_le _) (.inr hlow)
  · apply Bands.next_eq _ (Nat.le_of_ble_eq_true rfl) (.inr hmed)
    intro j hj
    obtain rfl : j = 0 := Nat.lt_one_iff.mp hj
    exact hlow
  · apply Bands.next_eq _ (Nat.le_of_ble_eq_true rfl) (.inr hhigh)
    intro j hj
    obtain rfl | rfl : j = 0 ∨ j = 1 := by omega
    · exact hlow
    · exact hmed
  · apply Bands.next_eq _ le_rfl (.inl rfl)
    intro j hj
    obtain rfl | rfl | rfl : j = 0 ∨ j = 1 ∨ j = 2 := by
      change j < 3 at hj
      omega
    · exact hlow
    · exact hmed
    · exact hhigh

/-- The same for a turn that may have nothing to read. -/
theorem level_step (h : limits.Ordered) (stat : ℕ) (sample : Sample) :
    level (monitorConnFunc limits stat sample).1 =
      (bands limits h).step (level stat) sample.freemem := by
  rcases sample with ⟨_ | freemem, n⟩
  · rfl
  · exact level_monitorConnFunc h stat freemem n

/-! ## Runs -/

theorem states_nil : states limits stat [] = [stat] := rfl

theorem states_cons (sample : Sample) (samples : List Sample) :
    states limits stat (sample :: samples) =
      stat :: states limits (monitorConnFunc limits stat sample).1 samples := rfl

theorem level_states (h : limits.Ordered) :
    (states limits stat samples).map level =
      (samples.map Sample.freemem).scanl (bands limits h).step (level stat) := by
  induction samples generalizing stat with
  | nil => rfl
  | cons sample samples ih =>
    rw [states_cons, List.map_cons, List.map_cons, List.scanl_cons, ih, level_step h]

theorem states_le (h : stat ≤ 3) : ∀ s ∈ states limits stat samples, s ≤ 3 := by
  induction samples generalizing stat with
  | nil => simpa [states_nil] using h
  | cons sample samples ih =>
    intro s hs
    rw [states_cons, List.mem_cons] at hs
    rcases hs with rfl | hs
    · exact h
    · exact ih (monitorConnFunc_le h) s hs

theorem reached_le (limits : BwLimits) (samples : List Sample) : reached limits samples ≤ 3 := by
  induction samples using List.reverseRecOn with
  | nil => exact Nat.zero_le 3
  | append_singleton samples sample ih =>
    rw [reached, List.foldl_concat]
    exact monitorConnFunc_le ih

/-- There are as many actions as changes of the state. -/
theorem length_actions (limits : BwLimits) (stat : ℕ) (samples : List Sample) :
    (actions limits stat samples).length = changes (states limits stat samples) := by
  induction samples generalizing stat with
  | nil => rfl
  | cons sample samples ih =>
    obtain ⟨tail, htail⟩ : ∃ tail, states limits (monitorConnFunc limits stat sample).1 samples =
      (monitorConnFunc limits stat sample).1 :: tail := ⟨_, rfl⟩
    have hrest := ih (monitorConnFunc limits stat sample).1
    rw [states_cons, htail, changes, ← htail, ← hrest, actions, mainLoop, List.filter_cons]
    have hempty : _ ↔ (monitorConnFunc limits stat sample).1 = stat := monitorConnFunc_isEmpty
    by_cases hsame : (monitorConnFunc limits stat sample).1 = stat
    · rw [hempty.mpr hsame, if_pos hsame.symm, Nat.zero_add]
      rfl
    · have hne : (monitorConnFunc limits stat sample).2 ≠ [] := fun hnil => hsame (hempty.mp hnil)
      rw [if_neg (Ne.symm hsame), if_pos (by simpa using hne), List.length_cons, Nat.add_comm]
      rfl

/-- While all readings lie in an interval shorter than the band, no state is left and taken
again, and there are at most three actions. A state is never better than the limits alone give. -/
theorem monitor_settles (limits : BwLimits) (h : limits.Ordered) :
    (∀ (before samples : List Sample) (lo hi : ℤ), hi - lo < 500 →
      (∀ sample ∈ samples, ∀ freemem, sample.freemem = some freemem → lo ≤ freemem ∧ freemem ≤ hi) →
      NoWayBack (states limits (reached limits before) samples) ∧
        (actions limits (reached limits before) samples).length ≤ 3) ∧
    ∀ (before : List Sample) (freemem : ℤ) (n : Option ℤ),
      level (reached limits (before ++ [⟨some freemem, n⟩])) ≤ level (plainStat limits freemem) := by
  constructor
  · intro before samples lo hi hwidth hin
    have hle := reached_le limits before
    have hback : NoWayBack (states limits (reached limits before) samples) := by
      apply NoWayBack.of_map (f := level)
      · have hwithin : Bands.Within lo hi (samples.map Sample.freemem) := by
          intro x hx
          obtain ⟨sample, hmem, hsome⟩ := List.mem_map.mp hx
          exact hin sample hmem x hsome
        have hshort : hi < lo + (bands limits h).band := by
          change hi < lo + 500
          omega
        rw [level_states h]
        exact Bands.noWayBack_scanl hshort hwithin (level_le _)
      · intro a ha b hb
        exact level_injOn (states_le hle a ha) (states_le hle b hb)
    refine ⟨hback, ?_⟩
    rw [length_actions]
    have hfew := hback.changes_lt (List.cons_ne_nil _ _)
    have hcard : (states limits (reached limits before) samples).toFinset.card ≤
        (Finset.range 4).card := by
      apply Finset.card_le_card
      intro s hs
      have := states_le hle s (List.mem_toFinset.mp hs)
      exact Finset.mem_range.mpr (by omega)
    rw [Finset.card_range] at hcard
    omega
  · intro before freemem n
    have hplain : level (plainStat limits freemem) = (bands limits h).next 3 freemem := by
      have h0 := level_monitorConnFunc h 0 freemem n
      rw [monitorConnFunc_fst] at h0
      change _ = (bands limits h).next (level 0) freemem
      rw [← h0, plainStat]
      simp
    rw [reached, List.foldl_concat, level_monitorConnFunc h, hplain]
    exact Bands.next_le_of_next le_rfl

theorem defaults_settle :
    NoWayBack (states {} (reached {} []) [⟨some 3400, none⟩, ⟨none, none⟩, ⟨some 3800, some 60⟩]) ∧
      (actions {} (reached {} [])
        [⟨some 3400, none⟩, ⟨none, none⟩, ⟨some 3800, some 60⟩]).length ≤ 3 := by
  apply (monitor_settles {} ⟨by decide, by decide⟩).1 [] _ 3400 3800 (by decide)
  simp

end EzpFirmware.Netstat
