import EzpFirmware.Lib.Counters
import EzpFirmware.Lib.KeyedRing
import Mathlib.Data.Int.Notation
import Mathlib.Data.Nat.Bitwise

/-! # Rates and the traffic history

At each sample the bytes since the last one are taken from the counters of an
interface and divided by the time that has passed.
-/
namespace EzpFirmware.Stats
open Lib

section
abbrev MAX_COUNTER : ℕ := 2

/-- One value for each direction. -/
abbrev Counters := Fin MAX_COUNTER → ℕ

/-- What `mrtg_t` keeps for one of its periods. -/
structure Track where
  utime : ℤ
  last : Counters
  tail : ℕ
  array : List Counters

/-- `diff_complement` on counters of 32 bits. -/
def diffComplement (c sc : ℕ) : ℕ := if c < sc then (0xFFFFFFFF - sc) + c else c - sc

/-- `calc_generic`, with the differences that it computes. -/
def calcGeneric (round : ℕ) (uptime : ℤ) (counter : Counters) (t : Track) :
    Track × Option Counters :=
  let tick := uptime - t.utime
  if tick = 0 then (t, none)
  else
    let tail := (t.tail + 1) % round
    let c : Counters := fun i => counter i % 2 ^ 32
    let diff : Counters := fun i => diffComplement (c i) (t.last i % 2 ^ 32)
    -- the time is taken as an `unsigned long`
    let rate : Counters := fun i => diff i / (tick % 2 ^ 32).toNat
    (⟨uptime, c, tail, t.array.set tail rate⟩, some diff)

/-- A sample of an interface: the time and the bytes that have passed so far. -/
structure Sample where
  uptime : ℤ
  bytes : Counters

/-- What the counters of 32 bits of the interface show. -/
def Sample.counter (s : Sample) : Counters := fun i => s.bytes i % 2 ^ 32

/-- What `calc` makes of a period at the first sample. -/
def Track.sync (t : Track) (s : Sample) : Track :=
  { t with utime := s.uptime, last := s.counter, array := t.array.set t.tail fun _ => 0 }

/-- The differences that are computed along some samples. -/
def differences (round : ℕ) : Track → List Sample → List Counters
  | _, [] => []
  | t, s :: samples =>
    let result := calcGeneric round s.uptime s.counter t
    result.2.toList ++ differences round result.1 samples

/-- The samples that are not taken at the time of the last one that counted. -/
def counted : ℤ → List Sample → List Sample
  | _, [] => []
  | utime, s :: samples =>
    if s.uptime - utime = 0 then counted utime samples else s :: counted s.uptime samples

variable {round : ℕ} {t : Track} {samples : List Sample} {i : Fin MAX_COUNTER} {first : Sample}

theorem diffComplement_eq (c sc : ℕ) : diffComplement c sc = shortGap (2 ^ 32) c sc := rfl

/-- What one call does, when it does something. -/
theorem calcGeneric_of_ne {uptime : ℤ} (counter : Counters) (h : uptime - t.utime ≠ 0) :
    (calcGeneric round uptime counter t).1.utime = uptime ∧
      (calcGeneric round uptime counter t).1.last = (fun i => counter i % 2 ^ 32) ∧
      (calcGeneric round uptime counter t).2 =
        some fun i => diffComplement (counter i % 2 ^ 32) (t.last i % 2 ^ 32) := by
  rw [calcGeneric, if_neg h]
  exact ⟨rfl, rfl, rfl⟩

/-- The differences are those of the totals of the samples that count. -/
theorem differences_eq {a : ℕ} (hlast : t.last i = a % 2 ^ 32) :
    (differences round t samples).map (fun d => d i) =
      shortGaps (2 ^ 32) a ((counted t.utime samples).map fun s => s.bytes i) := by
  induction samples generalizing t a with
  | nil => rfl
  | cons s samples ih =>
    rw [differences, counted]
    by_cases htick : s.uptime - t.utime = 0
    · rw [if_pos htick, calcGeneric, if_pos htick]
      exact ih hlast
    · obtain ⟨hutime, hnext, hdiff⟩ := @calcGeneric_of_ne round _ _ s.counter htick
      have hshown : s.counter i % 2 ^ 32 = s.bytes i % 2 ^ 32 := Nat.mod_mod _ _
      have hread : t.last i % 2 ^ 32 = a % 2 ^ 32 := by rw [hlast, Nat.mod_mod]
      have hrest := ih (t := (calcGeneric round s.uptime s.counter t).1) (a := s.bytes i)
        ((congrFun hnext i).trans hshown)
      rw [hutime] at hrest
      rw [if_neg htick, hdiff, List.map_append, hrest, List.map_cons, shortGaps]
      simp only [Option.toList_some, List.map_cons, List.map_nil, List.singleton_append]
      rw [diffComplement_eq, hshown, hread]

theorem counted_sublist (utime : ℤ) (samples : List Sample) :
    (counted utime samples).Sublist samples := by
  induction samples generalizing utime with
  | nil => exact List.Sublist.slnil
  | cons s samples ih =>
    rw [counted]
    split
    · exact (ih utime).cons s
    · exact (ih s.uptime).cons_cons s

/-- The differences of a direction add up to the bytes between the first and the last sample
if and only if no multiple of `2 ^ 32` is passed and nothing comes behind the last sample
that counts. -/
theorem differences_sum_iff (round : ℕ) (t : Track) (first : Sample) (samples : List Sample)
    (i : Fin MAX_COUNTER)
    (h : (first :: samples).IsChain fun s s' => s.bytes i ≤ s'.bytes i) :
    ((differences round (t.sync first) samples).map fun d => d i).sum =
        (samples.getLastD first).bytes i - first.bytes i ↔
      (∀ s ∈ counted first.uptime samples, s.bytes i / 2 ^ 32 = first.bytes i / 2 ^ 32) ∧
        ((counted first.uptime samples).getLastD first).bytes i =
          (samples.getLastD first).bytes i := by
  have hchain : ((first :: samples).map fun s => s.bytes i).IsChain (· ≤ ·) :=
    (List.isChain_map _).mpr h
  rw [List.map_cons] at hchain
  have hsub := (counted_sublist first.uptime samples).map fun s => s.bytes i
  have hlast := getLastD_le_of_sublist hchain hsub le_rfl
  have hcounted : (first.bytes i ::
      (counted first.uptime samples).map fun s => s.bytes i).IsChain (· ≤ ·) :=
    hchain.sublist (hsub.cons_cons _)
  have hiff := shortGaps_sum_eq_iff (by decide : 0 < 2 ^ 32) hcounted hlast
  have hends (l : List Sample) :
      (l.map fun s => s.bytes i).getLastD (first.bytes i) = (l.getLastD first).bytes i :=
    List.getLastD_map
  rw [hends, hends] at hiff
  rw [differences_eq (a := first.bytes i) rfl]
  refine hiff.trans ?_
  rw [List.forall_mem_map]

theorem differences_of_two :
    ((differences 120 (Track.sync ⟨0, fun _ => 0, 0, []⟩ ⟨60, fun _ => 1000⟩)
        [⟨120, fun _ => 5000⟩]).map fun d => d 0).sum = 5000 - 1000 ↔
      (∀ s ∈ counted 60 [⟨120, fun _ => 5000⟩], s.bytes 0 / 2 ^ 32 = 1000 / 2 ^ 32) ∧
        ((counted 60 [⟨120, fun _ => 5000⟩]).getLastD ⟨60, fun _ => 1000⟩).bytes 0 = 5000 :=
  differences_sum_iff 120 ⟨0, fun _ => 0, 0, []⟩ ⟨60, fun _ => 1000⟩ [⟨120, fun _ => 5000⟩] 0
    (List.isChain_pair.mpr (by decide))

/-- The step to `2 ^ 32` is not counted. -/
theorem one_byte_lost :
    ((differences 120 (Track.sync ⟨0, fun _ => 0, 0, []⟩ ⟨60, fun _ => 4294967295⟩)
      [⟨120, fun _ => 4294967296⟩]).map fun d => d 0).sum ≠ 4294967296 - 4294967295 := by
  decide

end

/-! ## The traffic history

At each sample the bytes are added to the entry of the day and to that of the
month. The entries are kept in two rings.
-/

abbrev MAX_NDAILY : ℕ := 62
abbrev MAX_NMONTHLY : ℕ := 25

/-- `data_t`, with counters of 64 bits. -/
structure Data where
  xtime : ℕ
  counter : Counters

/-- `hist_t`. -/
structure Hist where
  id : ℕ
  daily : Fin MAX_NDAILY → Data
  dailyp : Fin MAX_NDAILY
  monthly : Fin MAX_NMONTHLY → Data
  monthlyp : Fin MAX_NMONTHLY

def CURRENT_ID : ℕ := 0x31305352

def Data.zero : Data := ⟨0, fun _ => 0⟩

/-- `clear_hist`. -/
def clearHist : Hist := ⟨CURRENT_ID, fun _ => Data.zero, 0, fun _ => Data.zero, 0⟩

def Data.add (d : Data) (counter : Counters) : Data :=
  { d with counter := fun i => (d.counter i + counter i) % 2 ^ 64 }

/-- `bump`. -/
def bump {max : ℕ} [NeZero max] (data : Fin max → Data) (tail : Fin max) (xnow : ℕ)
    (counter : Counters) : (Fin max → Data) × Fin max :=
  if (data tail).xtime ≠ xnow then
    match (List.finRange max).reverse.find? fun i => (data i).xtime = xnow with
    | some t => (Function.update data t ((data t).add counter), tail)
    | none =>
      let t := tail + 1
      (Function.update data t (Data.add ⟨xnow, fun _ => 0⟩ counter), t)
  else (Function.update data tail ((data tail).add counter), tail)

/-! ## Dates -/

/-- The fields of `struct tm` that are used, for a date past the year 1899. -/
structure Tm where
  year : ℕ
  mon : ℕ
  mday : ℕ
  year_lt : year < 32768
  mon_lt : mon < 12
  mday_pos : 0 < mday
  mday_lt : mday < 32
  deriving DecidableEq

/-- The code of a date. -/
def Tm.xtime (tm : Tm) : ℕ := tm.year <<< 16 ||| tm.mon <<< 8 ||| tm.mday

theorem Tm.xtime_eq (tm : Tm) : tm.xtime = tm.year * 65536 + tm.mon * 256 + tm.mday := by
  have hmon := tm.mon_lt
  have hday := tm.mday_lt
  have hlow : tm.mon <<< 8 ||| tm.mday = tm.mon <<< 8 + tm.mday :=
    (Nat.shiftLeft_add_eq_or_of_lt (by omega) tm.mon).symm
  have hhigh : tm.year <<< 16 ||| (tm.mon <<< 8 + tm.mday) =
      tm.year <<< 16 + (tm.mon <<< 8 + tm.mday) := by
    apply (Nat.shiftLeft_add_eq_or_of_lt _ tm.year).symm
    rw [Nat.shiftLeft_eq]
    omega
  rw [Tm.xtime, Nat.lor_assoc, hlow, hhigh, Nat.shiftLeft_eq, Nat.shiftLeft_eq]
  omega

theorem Tm.xtime_pos (tm : Tm) : 0 < tm.xtime := by
  have hday := tm.mday_pos
  rw [tm.xtime_eq]
  omega

theorem Tm.xtime_injective : Function.Injective Tm.xtime := by
  rintro ⟨y, m, d, hy, hm, hp, hd⟩ ⟨y', m', d', hy', hm', hp', hd'⟩ h
  rw [Tm.xtime_eq, Tm.xtime_eq] at h
  simp only [Tm.mk.injEq]
  dsimp only at h
  omega

/-- Dates are ordered as their codes. -/
instance : LinearOrder Tm := LinearOrder.lift' Tm.xtime Tm.xtime_injective

/-! ## Samples -/

/-- `mrtg_t` without its name. -/
structure Mrtg where
  sync : Bool
  hour : Track
  day : Track
  week : Track
  month : Track

def Track.zero (round : ℕ) : Track := ⟨0, fun _ => 0, 0, List.replicate round fun _ => 0⟩

/-- An interface that is seen for the first time. -/
def Mrtg.new : Mrtg := ⟨true, Track.zero 120, Track.zero 144, Track.zero 168, Track.zero 120⟩

/-- A sample with the clock and the local date. -/
structure DatedSample extends Sample where
  now : ℤ
  tm : Tm

/-- One interface and the history. -/
structure Monitor where
  sp : Option Mrtg
  hist : Hist

def Y2K : ℤ := 946684800

def TIMER_DEVIATION : ℤ := 6

def Mrtg.reset (sp : Mrtg) (s : Sample) : Mrtg :=
  ⟨false, sp.hour.sync s, sp.day.sync s, sp.week.sync s, sp.month.sync s⟩

/-- A period of a track is over. -/
def Track.due (unit round : ℕ) (uptime : ℤ) (counter : Counters) (t : Track) : Track :=
  if uptime - t.utime + TIMER_DEVIATION ≥ unit then (calcGeneric round uptime counter t).1 else t

def Mrtg.tracks (uptime : ℤ) (counter : Counters) (sp : Mrtg) : Mrtg :=
  { sp with
    hour := sp.hour.due 60 120 uptime counter
    day := sp.day.due 600 144 uptime counter
    week := sp.week.due 3600 168 uptime counter
    month := sp.month.due 21600 120 uptime counter }

/-- The two calls of `bump` in `calc`. -/
def Hist.bumpBoth (hist : Hist) (tm : Tm) (counter : Counters) : Hist :=
  let daily := bump hist.daily hist.dailyp tm.xtime counter
  let monthly := bump hist.monthly hist.monthlyp (tm.year <<< 16 ||| tm.mon <<< 8) counter
  { hist with daily := daily.1, dailyp := daily.2, monthly := monthly.1, monthlyp := monthly.2 }

/-- What `calc` does for one interface. -/
def calcTraffic (s : DatedSample) (st : Monitor) : Monitor :=
  let found := st.sp.isSome
  let sp := st.sp.getD Mrtg.new
  if found ∧ sp.hour.utime = s.uptime then st
  else
    let sync : Bool := sp.sync ∨ (found ∧ sp.hour.utime > s.uptime)
    let sp := if sync then sp.reset s.toSample else sp
    let counter : Counters := if sync then fun _ => 0 else s.counter
    let sp := sp.tracks s.uptime counter
    let hist := if s.now > Y2K then st.hist.bumpBoth s.tm counter else st.hist
    ⟨some sp, hist⟩

/-- The samples one after the other, from a new process on. -/
def history (samples : List DatedSample) : Monitor :=
  samples.foldl (fun st s => calcTraffic s st) ⟨none, clearHist⟩

end EzpFirmware.Stats
