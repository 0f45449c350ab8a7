import EzpFirmware.Httpd.Auth
import EzpFirmware.Lib.Printing
import Mathlib.Data.List.Count

/-! # Services around a change

A variable names the services that a change of it stops and starts, one byte for
each. What was done already is kept in a map, so that a service is stopped once
for all the variables of a form that ask for it in the same place.
-/
namespace EzpFirmware.Httpd
open Lib

def SERV_BITLEN : ℕ := 8

def SERV_MASK : BitVec 64 := 0xff

def SERV_NGROUP : ℕ := 64 / SERV_BITLEN

def ACTION_REBOOT : BitVec 64 := 1

def ACTION_RESTART : BitVec 64 := 254

def ACTION_FORCE_NOT_REBOOT : BitVec 64 := 255

/-- `struct service`. -/
structure Service where
  flag : BitVec 64
  script : CStr
  script2 : CStr
  deriving DecidableEq

inductive Verb where
  | stop
  | start
  deriving DecidableEq

/-- A command for a service, with the line that the shell gets. -/
structure Command where
  verb : Verb
  service : Service
  line : CStr
  deriving DecidableEq

/-- What the bookkeeping works on: `reboot_action`, and the commands that were run. -/
structure Bookkeeping where
  rebootAction : ℤ
  commands : List Command

/-! ## Stopping and starting -/

/-- The loop of `setact`. -/
def setactFrom : ℕ → BitVec 64 → List (BitVec 64)
  | 0, _ => []
  | n + 1, actflag => (actflag &&& SERV_MASK) :: setactFrom n (actflag.sshiftRight SERV_BITLEN)

/-- `setact`. -/
def setact (actflag : BitVec 64) : List (BitVec 64) := setactFrom SERV_NGROUP actflag

section
variable (front back : CStr)

/-- The line of a command, between a prefix and a postfix. -/
def commandLine (verb : Verb) (s : Service) : CStr :=
  let word : CStr := match verb with
    | .stop => .ofString " stop "
    | .start => .ofString " start "
  (CStr.concat [front, .ofString " ", s.script, word, s.script2, .ofString " ", back]).take
    (TMP_LEN - 1)

def command (verb : Verb) (s : Service) : Command := ⟨verb, s, commandLine front back verb s⟩

/-- A round of the inner loop of `config_preaction`, for the bytes of the map and of the flag. -/
def preactionByte (s : Service) (w : Bookkeeping) (mapact servact : BitVec 64) : Bookkeeping :=
  if mapact = ACTION_REBOOT ∨ servact = ACTION_REBOOT ∧ mapact ≠ ACTION_FORCE_NOT_REBOOT then
    { w with rebootAction := 1 }
  else if mapact = ACTION_RESTART ∨ servact = ACTION_RESTART then { w with rebootAction := 2 }
  else if s.flag = servact ∧ s.flag ≠ mapact ∧ mapact ≠ ACTION_REBOOT then
    { w with commands := w.commands ++ [command front back .stop s] }
  else w

/-- `config_preaction`: the map and what was done. -/
def configPreaction (actionFlag : BitVec 64) (services : List Service)
    (state : BitVec 64 × Bookkeeping) : BitVec 64 × Bookkeeping :=
  let bytes := (setact state.1).zip (setact actionFlag)
  (actionFlag, services.foldl
    (fun w s => bytes.foldl (fun w b => preactionByte front back s w b.1 b.2) w) state.2)

/-- `config_postaction`. -/
def configPostaction (services : List Service) (state : BitVec 64 × Bookkeeping) : Bookkeeping :=
  services.foldl (fun w s => (setact state.1).foldl (fun w b =>
    if s.flag + 1 = b then { w with commands := w.commands ++ [command front back .start s] }
    else w) w) state.2

/-- Some calls for one flag, from an empty map on, and the starts behind them. -/
def configRun (actionFlag : BitVec 64) (services : List Service) (n : ℕ) (w : Bookkeeping) :
    Bookkeeping :=
  configPostaction front back services
    ((configPreaction front back actionFlag services)^[n] (0, w))

end

/-! ## What rounds add up to -/

/-- Some commands more, and a reboot if there is a reason for one. -/
def Bookkeeping.add (w : Bookkeeping) (reboot : Bool) (commands : List Command) : Bookkeeping :=
  ⟨if reboot then 1 else w.rebootAction, w.commands ++ commands⟩

namespace Bookkeeping

variable {ι : Type*} (w : Bookkeeping)

theorem add_nothing : w.add false [] = w := by
  simp [add]

theorem add_add (a b : Bool) (cs ds : List Command) :
    (w.add a cs).add b ds = w.add (a || b) (cs ++ ds) := by
  cases a <;> cases b <;> simp [add]

/-- Rounds that each add something add all of it in order. -/
theorem foldl_add {step : Bookkeeping → ι → Bookkeeping} {l : List ι} (reboot : ι → Bool)
    (commands : ι → List Command)
    (hstep : ∀ i ∈ l, ∀ w, step w i = w.add (reboot i) (commands i)) :
    l.foldl step w = w.add (l.any reboot) (l.flatMap commands) := by
  induction l generalizing w with
  | nil => exact w.add_nothing.symm
  | cons i l ih =>
    rw [List.foldl_cons, hstep i (by simp), ih _ fun j hj => hstep j (List.mem_cons_of_mem i hj),
      add_add, List.any_cons, List.flatMap_cons]

end Bookkeeping

/-! ## The codes of a flag -/

/-- The codes of a flag, its bytes from the lowest one on. -/
def codes (flag : BitVec 64) : List ℕ := (List.range 8).map fun i => flag.toNat / 256 ^ i % 256

theorem shifted_byte (flag : BitVec 64) {k : ℕ} (hk : k + 8 ≤ 64) :
    flag.sshiftRight k &&& SERV_MASK = BitVec.ofNat 64 (flag.toNat / 2 ^ k % 2 ^ 8) := by
  have hmask : ∀ j, SERV_MASK.getLsbD j = decide (j < 8) := by
    intro j
    have hpow : SERV_MASK = BitVec.ofNat 64 (2 ^ 8 - 1) := rfl
    rw [hpow, BitVec.getLsbD_ofNat, Nat.testBit_two_pow_sub_one, ← Bool.decide_and]
    exact decide_eq_decide.mpr (by omega)
  apply BitVec.eq_of_getLsbD_eq
  intro j hj
  rw [BitVec.getLsbD_and, hmask, BitVec.getLsbD_sshiftRight, BitVec.getLsbD_ofNat,
    Nat.testBit_mod_two_pow, Nat.testBit_div_two_pow]
  by_cases hlow : j < 8
  · have hin : k + j < 64 := by omega
    simp [hlow, hj, hin, Nat.add_comm j k, BitVec.getLsbD]
  · simp [hlow]

/-- The bytes of the loop are the codes of the flag: the bits that a shift repeats are masked. -/
theorem setact_eq (flag : BitVec 64) : setact flag = (codes flag).map (BitVec.ofNat 64) := by
  have hfrom : ∀ n k, 8 * (k + n) ≤ 64 → setactFrom n (flag.sshiftRight (8 * k)) =
      (List.range' k n).map fun i => BitVec.ofNat 64 (flag.toNat / 256 ^ i % 256) := by
    intro n
    induction n with
    | zero => simp [setactFrom]
    | succ n ih =>
      intro k hk
      have hpow : (256 : ℕ) ^ k = 2 ^ (8 * k) := by rw [Nat.pow_mul]
      rw [setactFrom, shifted_byte flag (by omega), List.range'_succ, List.map_cons, hpow,
        SERV_BITLEN, ← BitVec.sshiftRight_add, ← ih (k + 1) (by omega)]
      rfl
  have hwhole := hfrom 8 0 (by decide)
  rw [Nat.mul_zero, BitVec.sshiftRight_zero, ← List.range_eq_range'] at hwhole
  rw [setact, codes, List.map_map]
  exact hwhole

/-- A flag without a code twice, apart from `ACTION_NOTHING`, and without those for a restart. -/
structure PlainFlag (flag : BitVec 64) : Prop where
  once : ∀ c ∈ codes flag, c ≠ 0 → (codes flag).count c = 1
  no_restart : 254 ∉ codes flag
  no_force : 255 ∉ codes flag

/-- A table of services with even codes, a different one for each. -/
structure PlainTable (services : List Service) : Prop where
  even : ∀ s ∈ services, s.flag.toNat % 2 = 0
  something : ∀ s ∈ services, s.flag ≠ 0
  distinct : services.Pairwise fun s t => s.flag ≠ t.flag

section
variable {front back : CStr} {flag : BitVec 64} {services : List Service}

/-- The commands of a verb for the services whose keys are among the bytes of a flag. -/
def commandsFor (front back : CStr) (flag : BitVec 64) (services : List Service) (verb : Verb)
    (key : Service → BitVec 64) : List Command :=
  services.flatMap fun s => (setact flag).flatMap fun c =>
    if key s = c then [command front back verb s] else []

/-- Whether a flag asks for a reboot, with a service at least. -/
def asksReboot (flag : BitVec 64) (services : List Service) : Bool :=
  services.any fun _ => (setact flag).any fun c => c = ACTION_REBOOT

theorem map_toNat_setact (flag : BitVec 64) : (setact flag).map BitVec.toNat = codes flag := by
  rw [setact_eq, List.map_map]
  refine (List.map_congr_left fun c hc => ?_).trans (List.map_id' _)
  obtain ⟨i, -, rfl⟩ := List.mem_map.mp hc
  rw [Function.comp_apply, BitVec.toNat_ofNat]
  omega

theorem count_setact (c : BitVec 64) : (setact flag).count c = (codes flag).count c.toNat := by
  rw [← map_toNat_setact, List.count_map_of_injective _ _ fun a b => BitVec.eq_of_toNat_eq]

theorem mem_setact_iff {c : BitVec 64} : c ∈ setact flag ↔ c.toNat ∈ codes flag := by
  rw [← List.count_pos_iff, count_setact, List.count_pos_iff]

theorem PlainFlag.ne_restart (hflag : PlainFlag flag) {c : BitVec 64} (hc : c ∈ setact flag) :
    c ≠ ACTION_RESTART := by
  rintro rfl
  exact hflag.no_restart (mem_setact_iff.mp hc)

theorem zip_replicate {α β : Type*} (a : α) (l : List β) :
    (List.replicate l.length a).zip l = l.map fun b => (a, b) := by
  induction l with
  | nil => rfl
  | cons b l ih => simp [List.replicate_succ, ih]

theorem preactionByte_first {s : Service} (heven : s.flag.toNat % 2 = 0) (hne : s.flag ≠ 0)
    {c : BitVec 64} (hc : c ≠ ACTION_RESTART) (w : Bookkeeping) :
    preactionByte front back s w 0 c =
      w.add (c = ACTION_REBOOT) (if s.flag = c then [command front back .stop s] else []) := by
  have hreboot : s.flag ≠ ACTION_REBOOT := by
    intro h
    rw [h] at heven
    exact absurd heven (by decide)
  have hzero : (0 : BitVec 64) ≠ ACTION_REBOOT ∧ (0 : BitVec 64) ≠ ACTION_RESTART ∧
      (0 : BitVec 64) ≠ ACTION_FORCE_NOT_REBOOT := by decide
  unfold preactionByte
  by_cases h : c = ACTION_REBOOT
  · rw [if_pos (.inr ⟨h, hzero.2.2⟩), if_neg fun hs => hreboot (hs.trans h)]
    simp [Bookkeeping.add, h]
  · rw [if_neg (not_or.mpr ⟨hzero.1, fun hb => h hb.1⟩), if_neg (not_or.mpr ⟨hzero.2.1, hc⟩)]
    by_cases hs : s.flag = c
    · rw [if_pos ⟨hs, hne, hzero.1⟩, if_pos hs]
      simp [Bookkeeping.add, h]
    · rw [if_neg fun hb => hs hb.1, if_neg hs]
      simp [Bookkeeping.add, h]

theorem preactionByte_again {s : Service} {c : BitVec 64} (hc : c ≠ ACTION_RESTART)
    (w : Bookkeeping) :
    preactionByte front back s w c c = w.add (c = ACTION_REBOOT) [] := by
  by_cases h : c = ACTION_REBOOT
  · simp [preactionByte, Bookkeeping.add, h]
  · simp [preactionByte, Bookkeeping.add, h, hc]

variable (hflag : PlainFlag flag) (htable : PlainTable services)
include hflag htable

/-- The first call stops the services of the flag. -/
theorem configPreaction_first (w : Bookkeeping) :
    configPreaction front back flag services (0, w) =
      (flag, w.add (asksReboot flag services)
        (commandsFor front back flag services .stop Service.flag)) := by
  have hzip : (setact 0).zip (setact flag) = (setact flag).map fun b => (0, b) := by
    have hzeros : setact 0 = List.replicate (setact flag).length 0 := by
      simp [setact_eq, codes]
    rw [hzeros, zip_replicate]
  rw [configPreaction, hzip]
  congr 1
  refine w.foldl_add _ _ fun s hs w => ?_
  rw [List.foldl_map]
  exact w.foldl_add _ _ fun c hc w =>
    preactionByte_first (htable.even s hs) (htable.something s hs) (hflag.ne_restart hc) w

omit htable in
/-- A further call stops nothing. -/
theorem configPreaction_again (w : Bookkeeping) :
    configPreaction front back flag services (flag, w) =
      (flag, w.add (asksReboot flag services) []) := by
  have hzip : (setact flag).zip (setact flag) = (setact flag).map fun b => (b, b) := by
    have hmap := @List.zip_map' _ _ _ (fun b : BitVec 64 => b) (fun b => b) (setact flag)
    rwa [List.map_id'] at hmap
  rw [configPreaction, hzip]
  congr 1
  have hnone : services.flatMap (fun _ => (setact flag).flatMap fun _ => ([] : List Command)) = [] :=
    by simp
  rw [← hnone]
  refine w.foldl_add _ _ fun s hs w => ?_
  rw [List.foldl_map]
  exact w.foldl_add _ _ fun c hc w => preactionByte_again (hflag.ne_restart hc) w

omit hflag htable in
theorem configPostaction_eq (w : Bookkeeping) :
    configPostaction front back services (flag, w) =
      w.add false (commandsFor front back flag services .start fun s => s.flag + 1) := by
  have hbyte : ∀ (s : Service) (c : BitVec 64) (w : Bookkeeping),
      (if s.flag + 1 = c then { w with commands := w.commands ++ [command front back .start s] }
        else w) =
      w.add false (if s.flag + 1 = c then [command front back .start s] else []) := by
    intro s c w
    split_ifs
    · rfl
    · exact w.add_nothing.symm
  have hnever : services.any (fun _ => (setact flag).any fun _ => false) = false := by simp
  rw [configPostaction, ← hnever]
  exact w.foldl_add _ _ fun s _ w => w.foldl_add _ _ fun c _ w => hbyte s c w

/-- All calls together stop and start the services of the flag. -/
theorem configRun_eq {n : ℕ} (hn : 1 ≤ n) (w : Bookkeeping) :
    configRun front back flag services n w =
      w.add (asksReboot flag services) (commandsFor front back flag services .stop Service.flag ++
        commandsFor front back flag services .start fun s => s.flag + 1) := by
  have hcalls : ∀ k, (configPreaction front back flag services)^[k + 1] (0, w) =
      (flag, w.add (asksReboot flag services)
        (commandsFor front back flag services .stop Service.flag)) := by
    intro k
    induction k with
    | zero => exact configPreaction_first hflag htable w
    | succ k ih =>
      rw [Function.iterate_succ_apply', ih, configPreaction_again hflag,
        Bookkeeping.add_add, Bool.or_self, List.append_nil]
  obtain ⟨k, rfl⟩ := Nat.exists_eq_add_of_le' hn
  rw [configRun, hcalls, configPostaction_eq, Bookkeeping.add_add, Bool.or_false]

end

/-! ## How often a command is run -/

section
variable {front back : CStr} {flag : BitVec 64} {services : List Service}

/-- A code that is in the flag is among its bytes once. -/
theorem PlainFlag.count_eq (hflag : PlainFlag flag) {c : BitVec 64} (hne : c ≠ 0) :
    (setact flag).count c = if c.toNat ∈ codes flag then 1 else 0 := by
  rw [count_setact]
  split_ifs with hc
  · exact hflag.once c.toNat hc fun h => hne (BitVec.eq_of_toNat_eq h)
  · exact List.count_eq_zero.mpr hc

/-- Each match of a byte gives the same command. -/
theorem flatMap_match {α β : Type*} [DecidableEq α] (key : α) (x : β) (bytes : List α) :
    (bytes.flatMap fun c => if key = c then [x] else []) = List.replicate (bytes.count key) x := by
  induction bytes with
  | nil => rfl
  | cons b bytes ih =>
    rw [List.flatMap_cons, ih, List.count_cons]
    by_cases h : key = b
    · simp [h, List.replicate_succ]
    · simp [h, Ne.symm h]

theorem mem_commandsFor {verb : Verb} {key : Service → BitVec 64} {c : Command}
    (h : c ∈ commandsFor front back flag services verb key) :
    ∃ s ∈ services, key s ∈ setact flag ∧ c = command front back verb s := by
  obtain ⟨s, hs, h⟩ := List.mem_flatMap.mp h
  rw [flatMap_match, List.mem_replicate] at h
  exact ⟨s, hs, List.count_pos_iff.mp (Nat.pos_of_ne_zero h.1), h.2⟩

/-- A service is given its command as often as its key is among the bytes. -/
theorem count_commandsFor (hdistinct : services.Pairwise fun s t => s.flag ≠ t.flag) (verb : Verb)
    (key : Service → BitVec 64) {s : Service} (hs : s ∈ services) :
    (commandsFor front back flag services verb key).count (command front back verb s) =
      (setact flag).count (key s) := by
  induction services with
  | nil => cases hs
  | cons t services ih =>
    obtain ⟨hfirst, hrest⟩ := List.pairwise_cons.mp hdistinct
    have hhead : (commandsFor front back flag (t :: services) verb key).count
          (command front back verb s) =
        (List.replicate ((setact flag).count (key t)) (command front back verb t)).count
            (command front back verb s) +
          (commandsFor front back flag services verb key).count (command front back verb s) := by
      rw [commandsFor, List.flatMap_cons, List.count_append, flatMap_match]
      rfl
    rw [hhead, List.count_replicate]
    rcases List.mem_cons.mp hs with rfl | hs
    · have hnone : command front back verb s ∉ commandsFor front back flag services verb key := by
        intro h
        obtain ⟨u, hu, -, hsame⟩ := mem_commandsFor h
        exact hfirst u hu (congrArg (fun c : Command => c.service.flag) hsame)
      rw [List.count_eq_zero.mpr hnone]
      simp
    · have hother : (command front back verb t == command front back verb s) = false := by
        rw [beq_eq_false_iff_ne]
        intro hsame
        exact hfirst s hs (congrArg (fun c : Command => c.service.flag) hsame)
      rw [hother, ih hrest hs]
      simp

/-- A command for a verb is none for the other. -/
theorem count_commandsFor_other {verb verb' : Verb} (hne : verb ≠ verb')
    (key : Service → BitVec 64) (s : Service) :
    (commandsFor front back flag services verb key).count (command front back verb' s) = 0 := by
  rw [List.count_eq_zero]
  intro h
  obtain ⟨t, -, -, hsame⟩ := mem_commandsFor h
  exact hne (congrArg Command.verb hsame).symm

theorem asksReboot_iff : asksReboot flag services = true ↔ 1 ∈ codes flag ∧ services ≠ [] := by
  have hcode : ((setact flag).any fun c => c = ACTION_REBOOT) = true ↔ 1 ∈ codes flag := by
    rw [show (1 : ℕ) = ACTION_REBOOT.toNat from rfl, ← mem_setact_iff]
    simp
  cases services with
  | nil => simp [asksReboot]
  | cons s services =>
    rw [asksReboot, List.any_eq_true]
    simp only [hcode]
    simp

/-- The services of a flag are stopped once and started once however many variables ask for it, and
no others are. A reboot does not change that. -/
theorem services_once (front back : CStr) (hflag : PlainFlag flag) (htable : PlainTable services)
    {n : ℕ} (hn : 1 ≤ n) (rebootAction : ℤ) :
    (∀ s ∈ services,
      (configRun front back flag services n ⟨rebootAction, []⟩).commands.count
          (command front back .stop s) = (if s.flag.toNat ∈ codes flag then 1 else 0) ∧
        (configRun front back flag services n ⟨rebootAction, []⟩).commands.count
          (command front back .start s) = if s.flag.toNat + 1 ∈ codes flag then 1 else 0) ∧
      (∀ c ∈ (configRun front back flag services n ⟨rebootAction, []⟩).commands,
        ∃ s ∈ services, c = command front back .stop s ∨ c = command front back .start s) ∧
      (configRun front back flag services n ⟨rebootAction, []⟩).rebootAction =
        if 1 ∈ codes flag ∧ services ≠ [] then 1 else rebootAction := by
  rw [configRun_eq hflag htable hn]
  simp only [Bookkeeping.add, List.nil_append, List.count_append]
  refine ⟨fun s hs => ?_, fun c hc => ?_, ?_⟩
  · -- The code for a start is one more, and none is past the codes of 64 bits.
    have heven := htable.even s hs
    have hstart : (s.flag + 1).toNat = s.flag.toNat + 1 := by
      have hlt := s.flag.isLt
      rw [BitVec.toNat_add]
      exact Nat.mod_eq_of_lt (by simp; omega)
    have hne : s.flag + 1 ≠ 0 := fun h => by
      have hzero := congrArg BitVec.toNat h
      rw [hstart] at hzero
      cases hzero
    rw [count_commandsFor htable.distinct .stop _ hs, count_commandsFor htable.distinct .start _ hs,
      count_commandsFor_other (by decide), count_commandsFor_other (by decide), add_zero, zero_add,
      hflag.count_eq (htable.something s hs), hflag.count_eq hne, hstart]
    exact ⟨rfl, rfl⟩
  · rcases List.mem_append.mp hc with hc | hc <;> obtain ⟨s, hs, -, rfl⟩ := mem_commandsFor hc
    · exact ⟨s, hs, .inl rfl⟩
    · exact ⟨s, hs, .inr rfl⟩
  · simp only [asksReboot_iff]

end

/-- A table of two services, of the LAN and of the WAN. -/
def networkServices : List Service :=
  [⟨2, .ofString "/etc/rc.d/network-lan", CStr.empty⟩,
    ⟨4, .ofString "/etc/rc.d/network-wan", CStr.empty⟩]

/-- Three variables that ask for a restart of the LAN and for a reboot. -/
theorem services_once_lan :
    PlainFlag 0x010302 ∧ PlainTable networkServices ∧ ∀ s ∈ networkServices,
      (configRun CStr.empty CStr.empty 0x010302 networkServices 3 ⟨0, []⟩).commands.count
        (command CStr.empty CStr.empty .stop s) = if s.flag.toNat ∈ codes 0x010302 then 1 else 0 := by
  have hcodes : codes 0x010302 = [2, 3, 1, 0, 0, 0, 0, 0] := by decide +kernel
  have hflag : PlainFlag 0x010302 := by
    constructor <;> rw [hcodes] <;> decide
  have htable : PlainTable networkServices := by
    constructor <;> decide +kernel
  exact ⟨hflag, htable, fun s hs => ((services_once CStr.empty CStr.empty hflag htable
    (by decide : 1 ≤ 3) 0).1 s hs).1⟩

/-- Without services there is no reboot, and `ACTION_NOTHING` stops no service. -/
theorem services_nothing :
    1 ∈ codes 1 ∧ (configRun CStr.empty CStr.empty 1 [] 1 ⟨0, []⟩).rebootAction = 0 ∧
      0 ∈ codes 0x0e0c0a0806040200 ∧
      (configRun CStr.empty CStr.empty 0x0e0c0a0806040200 [⟨0, CStr.empty, CStr.empty⟩] 1
        ⟨0, []⟩).commands = [] := by
  refine ⟨by decide +kernel, rfl, by decide +kernel, by decide +kernel⟩

end EzpFirmware.Httpd
