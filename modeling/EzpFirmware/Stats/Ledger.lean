import EzpFirmware.Stats.History
import Mathlib.Data.Finset.Card
import Mathlib.Data.Finset.Image
import Mathlib.Data.Nat.Order.Lemmas

/-! # What the daily history shows

The ring of daily entries against the dates of the samples and the bytes that
passed on each of them.
-/
namespace EzpFirmware.Stats
open Lib

/-- One sample comes after another. -/
structure Follows (s s' : DatedSample) : Prop where
  uptime : s.uptime < s'.uptime
  tm : s.tm ≤ s'.tm
  bytes : ∀ i, s.bytes i ≤ s'.bytes i

/-- The bytes at the last sample of a date, or at the first sample of all. -/
def lastOn (first : DatedSample) (samples : List DatedSample) (day : Tm) : Counters :=
  ((samples.filter fun s => s.tm = day).getLastD first).bytes

/-- The bytes at the last sample before a date, or at the first sample of all. -/
def lastBefore (first : DatedSample) (samples : List DatedSample) (day : Tm) : Counters :=
  ((samples.filter fun s => s.tm < day).getLastD first).bytes

/-- The dates with a sample that come after a date. -/
def laterDates (samples : List DatedSample) (day : Tm) : Finset Tm :=
  (samples.map DatedSample.tm).toFinset.filter fun later => day < later

/-- Each of the last dates has exactly one daily entry, with the bytes that passed since the
last date before it. -/
def Hist.Shows (hist : Hist) (first : DatedSample) (samples : List DatedSample) : Prop :=
  ∀ day ∈ samples.map DatedSample.tm, (laterDates samples day).card < MAX_NDAILY →
    ∃ i, (hist.daily i).xtime = day.xtime ∧
      (∀ c, (hist.daily i).counter c = lastOn first samples day c - lastBefore first samples day c) ∧
      ∀ j, (hist.daily j).xtime = day.xtime → j = i

/-! ## The entries that are kept -/

/-- A sample goes to the newest entry or to a new one. -/
def record (entries : List Data) (xnow : ℕ) (counter : Counters) : List Data :=
  match entries with
  | [] => [Data.add ⟨xnow, fun _ => 0⟩ counter]
  | d :: rest =>
    if d.xtime = xnow then d.add counter :: rest
    else Data.add ⟨xnow, fun _ => 0⟩ counter :: d :: rest

/-- The entries behind the samples, the newest one in front. -/
def ledger (first : DatedSample) (samples : List DatedSample) : List Data :=
  samples.foldl (fun entries s => record entries s.tm.xtime s.counter)
    (record [] first.tm.xtime fun _ => 0)

/-- The ring holds the entries. -/
abbrev Kept {max : ℕ} [NeZero max] (data : Fin max → Data) (tail : Fin max)
    (entries : List Data) : Prop :=
  KeyedRing.Holds Data.xtime Data.zero data tail entries

variable {max : ℕ} [NeZero max] {data : Fin max → Data} {tail : Fin max} {entries : List Data}
  {xnow : ℕ} {counter : Counters} {d : Data}

theorem add_xtime : (d.add counter).xtime = d.xtime := rfl

/-- A date that no entry has goes to a new entry. -/
theorem Kept.bump_new (h : Kept data tail entries) (hpos : 0 < xnow)
    (hnew : ∀ d ∈ entries, d.xtime < xnow) :
    Kept (bump data tail xnow counter).1 (bump data tail xnow counter).2
      (Data.add ⟨xnow, fun _ => 0⟩ counter :: entries) := by
  have hnone : ((List.finRange max).reverse.find? fun i => (data i).xtime = xnow) = none := by
    rw [List.find?_eq_none]
    intro i _ hi
    exact h.key_ne hpos hnew i (of_decide_eq_true hi)
  rw [bump, if_pos (h.key_ne hpos hnew tail), hnone]
  exact h.push hpos hnew

/-- The date of the newest entry is added to. -/
theorem Kept.bump_same (h : Kept data tail (d :: entries)) (hsame : d.xtime = xnow) :
    Kept (bump data tail xnow counter).1 (bump data tail xnow counter).2
      (d.add counter :: entries) := by
  rw [bump, h.tail_eq, if_neg (not_not.mpr hsame)]
  exact h.touch rfl

/-- What `bump` makes of the entries, when the dates do not go back. -/
theorem Kept.bump (h : Kept data tail entries) (hpos : 0 < xnow)
    (hold : ∀ d ∈ entries, d.xtime ≤ xnow) :
    Kept (bump data tail xnow counter).1 (bump data tail xnow counter).2
      (record entries xnow counter) := by
  cases entries with
  | nil => exact h.bump_new hpos fun _ hd => (List.not_mem_nil hd).elim
  | cons d entries =>
    rw [record]
    split
    case isTrue hsame => exact h.bump_same hsame
    case isFalse hne =>
      apply h.bump_new hpos
      have hd : d.xtime < xnow := lt_of_le_of_ne (hold d List.mem_cons_self) hne
      intro e he
      rcases List.mem_cons.mp he with rfl | he
      · exact hd
      · exact lt_trans ((List.pairwise_cons.mp h.sorted).1 e he) hd

/-! ## Runs -/

/-- What holds of one interface and the history behind a sample. -/
structure Running (st : Monitor) (last : DatedSample) (entries : List Data) : Prop where
  sp : ∃ m, st.sp = some m ∧ m.sync = false ∧ m.hour.utime ≤ last.uptime
  kept : Kept st.hist.daily st.hist.dailyp entries
  old : ∀ d ∈ entries, d.xtime ≤ last.tm.xtime

theorem due_utime_le {unit round : ℕ} {uptime : ℤ} {t : Track} (h : t.utime ≤ uptime) :
    (t.due unit round uptime counter).utime ≤ uptime := by
  rw [Track.due, calcGeneric]
  split_ifs
  · exact h
  · exact le_rfl
  · exact h

theorem record_old {bound : ℕ} (hold : ∀ d ∈ entries, d.xtime ≤ bound) :
    ∀ d ∈ record entries bound counter, d.xtime ≤ bound := by
  intro e he
  cases entries with
  | nil =>
    obtain rfl := List.mem_singleton.mp he
    exact le_rfl
  | cons d entries =>
    rw [record] at he
    split at he
    · rcases List.mem_cons.mp he with rfl | he
      · exact hold d List.mem_cons_self
      · exact hold e (List.mem_cons_of_mem d he)
    · rcases List.mem_cons.mp he with rfl | he
      · exact le_rfl
      · exact hold e he

variable {st : Monitor} {first last s : DatedSample} {rest samples : List DatedSample}

/-- What the first sample leaves. -/
theorem Running.start (hnow : Y2K < first.now) :
    Running (calcTraffic first ⟨none, clearHist⟩) first (record [] first.tm.xtime fun _ => 0) := by
  have hempty : Kept clearHist.daily clearHist.dailyp [] :=
    KeyedRing.Holds.nil Data.xtime Data.zero 0
  have hkept := @Kept.bump _ _ _ _ _ _ (fun _ => 0) hempty first.tm.xtime_pos
    fun _ hd => (List.not_mem_nil hd).elim
  have hcalc : calcTraffic first ⟨none, clearHist⟩ =
      ⟨some ((Mrtg.new.reset first.toSample).tracks first.uptime fun _ => 0),
        clearHist.bumpBoth first.tm fun _ => 0⟩ := by
    simp [calcTraffic, Mrtg.new, hnow]
  rw [hcalc]
  refine ⟨⟨_, rfl, rfl, ?_⟩, hkept, record_old fun _ hd => (List.not_mem_nil hd).elim⟩
  exact due_utime_le le_rfl

/-- What a later sample leaves. -/
theorem Running.next (h : Running st last entries) (hfollows : Follows last s)
    (hnow : Y2K < s.now) :
    Running (calcTraffic s st) s (record entries s.tm.xtime s.counter) := by
  obtain ⟨⟨m, hsp, hsync, hutime⟩, hkept, hold⟩ := h
  have hlt : m.hour.utime < s.uptime := hutime.trans_lt hfollows.uptime
  have hcalc : calcTraffic s st =
      ⟨some (m.tracks s.uptime s.counter), st.hist.bumpBoth s.tm s.counter⟩ := by
    simp [calcTraffic, hsp, hsync, hlt.ne, not_lt.mpr hlt.le, hnow]
  have hreach : ∀ d ∈ entries, d.xtime ≤ s.tm.xtime := by
    intro d hd
    exact (hold d hd).trans hfollows.tm
  rw [hcalc]
  refine ⟨⟨_, rfl, hsync, ?_⟩, hkept.bump s.tm.xtime_pos hreach, record_old hreach⟩
  exact due_utime_le hlt.le

theorem ledger_concat (first : DatedSample) (rest : List DatedSample) (s : DatedSample) :
    ledger first (rest ++ [s]) = record (ledger first rest) s.tm.xtime s.counter :=
  List.foldl_concat _ _ _ _

theorem history_concat (samples : List DatedSample) (s : DatedSample) :
    history (samples ++ [s]) = calcTraffic s (history samples) :=
  List.foldl_concat _ _ _ _

/-- A run keeps its entries. -/
theorem running (first : DatedSample) (rest : List DatedSample)
    (hnow : ∀ s ∈ first :: rest, Y2K < s.now) (horder : (first :: rest).Pairwise Follows) :
    Running (history (first :: rest)) (rest.getLastD first) (ledger first rest) := by
  induction rest using List.reverseRecOn with
  | nil => exact Running.start (hnow first List.mem_cons_self)
  | append_singleton rest s ih =>
    rw [← List.cons_append] at hnow horder ⊢
    obtain ⟨hbefore, -, hlast⟩ := List.pairwise_append.mp horder
    have hrest := ih (fun x hx => hnow x (List.mem_append_left [s] hx)) hbefore
    have hfollows := hlast _ List.getLastD_mem_cons s List.mem_cons_self
    rw [history_concat, ledger_concat, List.getLastD_concat]
    exact hrest.next hfollows (hnow s (List.mem_append_right _ List.mem_cons_self))

end EzpFirmware.Stats
