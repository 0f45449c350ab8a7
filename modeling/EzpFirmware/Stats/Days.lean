import EzpFirmware.Stats.Ledger

/-! # The bytes of each day

The entries hold the sums of what the counters showed. These are the bytes of each
day only as long as the counters show what has passed since the last sample.
-/
namespace EzpFirmware.Stats
open Lib

variable {first s last : DatedSample} {rest samples : List DatedSample} {day : Tm} {d : Data}
  {entries : List Data}

/-! ## The bytes at the samples -/

/-- A run ends with its last sample. -/
theorem exists_init (first : DatedSample) (rest : List DatedSample) :
    ∃ init, first :: rest = init ++ [rest.getLastD first] := by
  cases rest using List.reverseRecOn with
  | nil => exact ⟨[], rfl⟩
  | append_singleton rest s =>
    refine ⟨first :: rest, ?_⟩
    rw [List.getLastD_concat, List.cons_append]

theorem lastOn_concat_same (samples : List DatedSample) :
    lastOn first (samples ++ [s]) s.tm = s.bytes := by
  rw [lastOn, List.filter_append, List.filter_cons_of_pos (by simp), List.filter_nil,
    List.getLastD_concat]

theorem lastOn_concat_of_ne (samples : List DatedSample) (h : s.tm ≠ day) :
    lastOn first (samples ++ [s]) day = lastOn first samples day := by
  rw [lastOn, List.filter_append, List.filter_cons_of_neg (by simpa using h), List.filter_nil,
    List.append_nil, lastOn]

theorem lastBefore_concat_of_lt (samples : List DatedSample) (h : s.tm < day) :
    lastBefore first (samples ++ [s]) day = s.bytes := by
  rw [lastBefore, List.filter_append, List.filter_cons_of_pos (by simpa using h), List.filter_nil,
    List.getLastD_concat]

theorem lastBefore_concat_of_not_lt (samples : List DatedSample) (h : ¬ s.tm < day) :
    lastBefore first (samples ++ [s]) day = lastBefore first samples day := by
  rw [lastBefore, List.filter_append, List.filter_cons_of_neg (by simpa using h), List.filter_nil,
    List.append_nil, lastBefore]

/-- The run has reached a sample and goes on with another one. -/
structure Reaches (first : DatedSample) (rest : List DatedSample) (last : DatedSample) : Prop where
  eq : rest.getLastD first = last
  order : (first :: rest).Pairwise Follows

theorem Reaches.le (h : Reaches first rest last) {x : DatedSample} (hx : x ∈ first :: rest) :
    x.tm ≤ last.tm ∧ ∀ c, x.bytes c ≤ last.bytes c := by
  obtain ⟨init, hinit⟩ := exists_init first rest
  have horder := h.order
  rw [hinit, h.eq] at hx horder
  rcases List.mem_append.mp hx with hx | hx
  · have hfollows := (List.pairwise_append.mp horder).2.2 x hx last List.mem_cons_self
    exact ⟨hfollows.tm, hfollows.bytes⟩
  · obtain rfl := List.mem_singleton.mp hx
    exact ⟨le_rfl, fun _ => le_rfl⟩

theorem Reaches.lastOn (h : Reaches first rest last) :
    lastOn first (first :: rest) last.tm = last.bytes := by
  obtain ⟨init, hinit⟩ := exists_init first rest
  rw [hinit, h.eq, lastOn_concat_same]

theorem Reaches.lastBefore (h : Reaches first rest last) (hlt : last.tm < day) :
    lastBefore first (first :: rest) day = last.bytes := by
  obtain ⟨init, hinit⟩ := exists_init first rest
  rw [hinit, h.eq, lastBefore_concat_of_lt init hlt]

theorem Reaches.lastBefore_le (h : Reaches first rest last) (day : Tm) (c : Fin MAX_COUNTER) :
    Stats.lastBefore first (first :: rest) day c ≤ last.bytes c := by
  apply (h.le _).2 c
  rcases List.mem_cons.mp (List.getLastD_mem_cons (a := first)
    (l := (first :: rest).filter fun s => s.tm < day)) with heq | hmem
  · rw [heq]
    exact List.mem_cons_self
  · exact List.mem_of_mem_filter hmem

theorem lastBefore_of_still (hstill : ∀ x ∈ first :: rest, x.bytes = last.bytes) (day : Tm) :
    lastBefore first (first :: rest) day = last.bytes := by
  rcases List.mem_cons.mp (List.getLastD_mem_cons (a := first)
    (l := (first :: rest).filter fun s => s.tm < day)) with heq | hmem
  · rw [lastBefore, heq]
    exact hstill first List.mem_cons_self
  · exact hstill _ (List.mem_of_mem_filter hmem)

/-! ## The newest entry -/

/-- The newest entry is that of the last sample. -/
theorem exists_newest (first : DatedSample) (rest : List DatedSample) :
    ∃ d entries, ledger first rest = d :: entries ∧
      d.xtime = (rest.getLastD first).tm.xtime := by
  cases rest using List.reverseRecOn with
  | nil => exact ⟨_, _, rfl, rfl⟩
  | append_singleton rest s =>
    rw [ledger_concat, List.getLastD_concat]
    cases ledger first rest with
    | nil => exact ⟨_, _, rfl, rfl⟩
    | cons d entries =>
      rw [record]
      split
      case isTrue hsame => exact ⟨_, _, rfl, hsame⟩
      case isFalse => exact ⟨_, _, rfl, rfl⟩

/-- The newest entry has the bytes of its day. -/
def NewestRight (first : DatedSample) (rest : List DatedSample) : Prop :=
  ∀ d entries, ledger first rest = d :: entries → ∀ c, d.counter c =
    (rest.getLastD first).bytes c -
      lastBefore first (first :: rest) (rest.getLastD first).tm c

theorem counter_lt (s : DatedSample) (c : Fin MAX_COUNTER) : s.counter c < 2 ^ 32 :=
  Nat.mod_lt _ (Nat.two_pow_pos 32)

/-- The bytes of the newest day grow by those since the last sample. -/
theorem Reaches.grows (h : Reaches first rest last) (hfollows : Follows last s) (c : Fin MAX_COUNTER) :
    s.bytes c - Stats.lastBefore first (first :: rest ++ [s]) s.tm c =
      (if last.tm = s.tm then last.bytes c - Stats.lastBefore first (first :: rest) last.tm c else 0) +
        (s.bytes c - last.bytes c) := by
  have hle := hfollows.bytes c
  rw [lastBefore_concat_of_not_lt _ (lt_irrefl s.tm)]
  split
  case isTrue hsame =>
    have hbase := h.lastBefore_le last.tm c
    rw [← hsame]
    omega
  case isFalse hne =>
    rw [h.lastBefore (lt_of_le_of_ne hfollows.tm hne)]
    omega

/-- What the newest entry becomes. -/
theorem newest_concat (hledger : ledger first rest = d :: entries) (hd : d.xtime = last.tm.xtime)
    (s : DatedSample) :
    ledger first (rest ++ [s]) =
      if last.tm = s.tm then d.add s.counter :: entries
      else Data.add ⟨s.tm.xtime, fun _ => 0⟩ s.counter :: d :: entries := by
  rw [ledger_concat, hledger, record, hd]
  exact if_congr Tm.xtime_injective.eq_iff rfl rfl

/-- The newest entry stays right only if the counter shows what has passed. -/
theorem NewestRight.shown (hbefore : NewestRight first rest) (h : Reaches first rest last)
    (hfollows : Follows last s) (hright : NewestRight first (rest ++ [s])) (c : Fin MAX_COUNTER) :
    s.counter c = s.bytes c - last.bytes c := by
  obtain ⟨d, entries, hledger, hd⟩ := exists_newest first rest
  have hnew := @newest_concat _ last _ _ _ hledger (h.eq ▸ hd) s
  have hgrows := h.grows hfollows c
  have hsmall := counter_lt s c
  have hold := hbefore d entries hledger c
  rw [h.eq] at hold
  by_cases hsame : last.tm = s.tm
  · rw [if_pos hsame] at hnew hgrows
    have hcount := hright _ _ hnew c
    rw [List.getLastD_concat] at hcount
    change (d.counter c + s.counter c) % 2 ^ 64 =
      s.bytes c - lastBefore first (first :: rest ++ [s]) s.tm c at hcount
    omega
  · rw [if_neg hsame] at hnew hgrows
    have hcount := hright _ _ hnew c
    rw [List.getLastD_concat] at hcount
    change (0 + s.counter c) % 2 ^ 64 =
      s.bytes c - lastBefore first (first :: rest ++ [s]) s.tm c at hcount
    omega

/-- The newest entry stays right if the counter shows what has passed, and nothing had
passed before. -/
theorem NewestRight.concat (hbefore : NewestRight first rest) (h : Reaches first rest last)
    (hfollows : Follows last s) (hstill : ∀ x ∈ first :: rest, x.bytes = last.bytes)
    (hshown : ∀ c, s.counter c = s.bytes c - last.bytes c) : NewestRight first (rest ++ [s]) := by
  obtain ⟨d, entries, hledger, hd⟩ := exists_newest first rest
  have hnew := @newest_concat _ last _ _ _ hledger (h.eq ▸ hd) s
  intro d' entries' hledger' c
  have hgrows := h.grows hfollows c
  have hsmall := counter_lt s c
  have hold := hbefore d entries hledger c
  have hshow := hshown c
  rw [List.getLastD_concat]
  rw [h.eq] at hold
  change _ = s.bytes c - lastBefore first (first :: rest ++ [s]) s.tm c
  by_cases hsame : last.tm = s.tm
  · have hnone : last.bytes c - lastBefore first (first :: rest) last.tm c = 0 := by
      rw [lastBefore_of_still hstill]
      exact Nat.sub_self _
    rw [if_pos hsame] at hnew hgrows
    obtain ⟨rfl, -⟩ := List.cons.inj (hledger'.symm.trans hnew)
    change (d.counter c + s.counter c) % 2 ^ 64 = _
    omega
  · rw [if_neg hsame] at hnew hgrows
    obtain ⟨rfl, -⟩ := List.cons.inj (hledger'.symm.trans hnew)
    change (0 + s.counter c) % 2 ^ 64 = _
    omega

/-! ## All entries -/

/-- An entry of the days. -/
def DayEntry (first : DatedSample) (samples : List DatedSample) (d : Data) : Prop :=
  ∃ day ∈ samples.map DatedSample.tm, d.xtime = day.xtime ∧
    ∀ c, d.counter c = lastOn first samples day c - lastBefore first samples day c

/-- All entries have the bytes of their days. -/
def AllRight (first : DatedSample) (rest : List DatedSample) : Prop :=
  ∀ d ∈ ledger first rest, DayEntry first (first :: rest) d

theorem AllRight.newest (hall : AllRight first rest) (h : Reaches first rest last) :
    NewestRight first rest := by
  obtain ⟨d, entries, hledger, hd⟩ := exists_newest first rest
  intro d' entries' hledger' c
  obtain ⟨rfl, -⟩ := List.cons.inj (hledger'.symm.trans hledger)
  obtain ⟨day, -, hday, hcount⟩ := hall d' (hledger ▸ List.mem_cons_self)
  obtain rfl := Tm.xtime_injective (hd.symm.trans hday)
  rw [hcount c, h.eq, h.lastOn]

theorem AllRight.start (first : DatedSample) : AllRight first [] := by
  intro d hd
  obtain rfl := List.mem_singleton.mp hd
  refine ⟨first.tm, List.mem_cons_self, rfl, ?_⟩
  intro c
  have hon : lastOn first [first] first.tm = first.bytes := lastOn_concat_same []
  have hbefore : lastBefore first [first] first.tm = first.bytes :=
    lastBefore_concat_of_not_lt [] (lt_irrefl first.tm)
  rw [hon, hbefore, Nat.sub_self]
  rfl

/-- A sample of another day leaves an entry as it is. -/
theorem DayEntry.concat (hd : DayEntry first (first :: rest) d) (h : Reaches first rest last)
    (hfollows : Follows last s) (hne : d.xtime ≠ s.tm.xtime) :
    DayEntry first (first :: rest ++ [s]) d := by
  obtain ⟨day, hmem, hday, hcount⟩ := hd
  have hother : s.tm ≠ day := by
    rintro rfl
    exact hne hday
  have hearlier : ¬ s.tm < day := by
    obtain ⟨x, hx, rfl⟩ := List.mem_map.mp hmem
    exact not_lt.mpr ((h.le hx).1.trans hfollows.tm)
  refine ⟨day, ?_, hday, ?_⟩
  · rw [List.map_append]
    exact List.mem_append_left _ hmem
  · intro c
    rw [hcount c, lastOn_concat_of_ne _ hother, lastBefore_concat_of_not_lt _ hearlier]

/-- With the newest entry the others stay right. -/
theorem AllRight.concat (hall : AllRight first rest) (h : Reaches first rest last)
    (hfollows : Follows last s)
    (hsorted : (ledger first rest).Pairwise fun a b => b.xtime < a.xtime)
    (hnewest : NewestRight first (rest ++ [s])) : AllRight first (rest ++ [s]) := by
  obtain ⟨d, entries, hledger, hd⟩ := exists_newest first rest
  rw [h.eq] at hd
  have hnew := newest_concat hledger hd s
  rw [hledger, List.pairwise_cons] at hsorted
  intro e he
  have hcounts : ∀ d' entries', ledger first (rest ++ [s]) = d' :: entries' →
      d'.xtime = s.tm.xtime → DayEntry first (first :: rest ++ [s]) d' := by
    intro d' entries' hledger' hd'
    refine ⟨s.tm, by simp, hd', ?_⟩
    intro c
    have hcount := hnewest d' entries' hledger' c
    rw [List.getLastD_concat] at hcount
    rw [hcount, lastOn_concat_same]
    rfl
  by_cases hsame : last.tm = s.tm
  · rw [if_pos hsame] at hnew
    rw [hnew] at he
    rcases List.mem_cons.mp he with rfl | he
    · apply hcounts _ _ hnew
      rw [add_xtime, hd, hsame]
    · have hold := hall e (hledger ▸ List.mem_cons_of_mem d he)
      apply hold.concat h hfollows
      rw [← hsame, ← hd]
      exact (hsorted.1 e he).ne
  · rw [if_neg hsame] at hnew
    rw [hnew] at he
    have hlt : last.tm < s.tm := lt_of_le_of_ne hfollows.tm hsame
    rcases List.mem_cons.mp he with rfl | he
    · exact hcounts _ _ hnew rfl
    · have hold := hall e (hledger ▸ he)
      apply hold.concat h hfollows
      obtain ⟨day, hmem, hday, -⟩ := hold
      obtain ⟨x, hx, rfl⟩ := List.mem_map.mp hmem
      have hbefore : x.tm.xtime < s.tm.xtime := lt_of_le_of_lt (h.le hx).1 hlt
      rw [hday]
      exact hbefore.ne

/-! ## The history shows the entries -/

theorem mem_record_of_mem {xnow : ℕ} {counter : Counters} (hd : d ∈ entries) :
    ∃ d' ∈ record entries xnow counter, d'.xtime = d.xtime := by
  cases entries with
  | nil => exact (List.not_mem_nil hd).elim
  | cons e entries =>
    rw [record]
    split
    · rcases List.mem_cons.mp hd with rfl | hd
      · exact ⟨_, List.mem_cons_self, rfl⟩
      · exact ⟨d, List.mem_cons_of_mem _ hd, rfl⟩
    · exact ⟨d, List.mem_cons_of_mem _ hd, rfl⟩

/-- Every date has an entry. -/
theorem mem_ledger_of_tm (first : DatedSample) (rest : List DatedSample) :
    ∀ day ∈ (first :: rest).map DatedSample.tm, ∃ d ∈ ledger first rest, d.xtime = day.xtime := by
  induction rest using List.reverseRecOn with
  | nil =>
    intro day hday
    obtain rfl := List.mem_singleton.mp hday
    exact ⟨_, List.mem_cons_self, rfl⟩
  | append_singleton rest s ih =>
    intro day hday
    rw [← List.cons_append, List.map_append, List.mem_append] at hday
    rcases hday with hday | hday
    · obtain ⟨d, hd, hx⟩ := ih day hday
      obtain ⟨d', hd', hx'⟩ := mem_record_of_mem hd
      rw [ledger_concat]
      exact ⟨d', hd', hx'.trans hx⟩
    · obtain rfl := List.mem_singleton.mp hday
      obtain ⟨d, entries, hledger, hd⟩ := exists_newest first (rest ++ [s])
      rw [List.getLastD_concat] at hd
      exact ⟨d, hledger ▸ List.mem_cons_self, hd⟩

/-- The entries in front of one belong to later dates. -/
theorem AllRight.le_card (hall : AllRight first rest) {k : ℕ}
    (hsorted : (ledger first rest).Pairwise fun a b => b.xtime < a.xtime)
    (hk : (ledger first rest)[k]? = some d) (hday : d.xtime = day.xtime) :
    k ≤ (laterDates (first :: rest) day).card := by
  have hlen : k < (ledger first rest).length := (List.getElem?_eq_some_iff.mp hk).1
  have hsplit := hsorted
  rw [← List.take_append_drop k (ledger first rest), List.pairwise_append] at hsplit
  obtain ⟨htake, -, hcross⟩ := hsplit
  have hd : d ∈ (ledger first rest).drop k := by
    apply List.mem_of_getElem? (i := 0)
    rw [List.getElem?_drop]
    exact hk
  have hnodup : (((ledger first rest).take k).map Data.xtime).Nodup := by
    rw [List.Nodup, List.pairwise_map]
    exact htake.imp fun hlt => hlt.ne'
  have hsub : (((ledger first rest).take k).map Data.xtime).toFinset ⊆
      (laterDates (first :: rest) day).image Tm.xtime := by
    intro x hx
    obtain ⟨e, he, rfl⟩ := List.mem_map.mp (List.mem_toFinset.mp hx)
    obtain ⟨day', hmem, hx', -⟩ := hall e (List.mem_of_mem_take he)
    have hlater : day.xtime < day'.xtime := by
      rw [← hday, ← hx']
      exact hcross e he d hd
    exact Finset.mem_image.mpr
      ⟨day', Finset.mem_filter.mpr ⟨List.mem_toFinset.mpr hmem, hlater⟩, hx'.symm⟩
  have hcard := (Finset.card_le_card hsub).trans Finset.card_image_le
  rw [List.toFinset_card_of_nodup hnodup, List.length_map,
    List.length_take_of_le hlen.le] at hcard
  exact hcard

/-- Right entries are shown. -/
theorem AllRight.shows (hall : AllRight first rest) {hist : Hist}
    (hkept : Kept hist.daily hist.dailyp (ledger first rest)) :
    hist.Shows first (first :: rest) := by
  intro day hday hlater
  obtain ⟨d, hd, hxtime⟩ := mem_ledger_of_tm first rest day hday
  obtain ⟨k, hk⟩ := List.mem_iff_getElem?.mp hd
  have hfew := hall.le_card hkept.sorted hk hxtime
  obtain ⟨i, hi, hunique⟩ := hkept.unique (hfew.trans_lt hlater) hk
  obtain ⟨day', -, hday', hcount⟩ := hall d hd
  obtain rfl := Tm.xtime_injective (hxtime.symm.trans hday')
  refine ⟨i, ?_, ?_, ?_⟩
  · rw [hi, hxtime]
  · rw [hi]
    exact hcount
  · intro j hj
    exact hunique j (hj.trans hxtime.symm)

/-- What is shown has the newest entry right. -/
theorem newestRight_of_shows (h : Reaches first rest last) {hist : Hist}
    (hkept : Kept hist.daily hist.dailyp (ledger first rest))
    (hshows : hist.Shows first (first :: rest)) : NewestRight first rest := by
  obtain ⟨d, entries, hledger, hd⟩ := exists_newest first rest
  rw [h.eq] at hd
  intro d' entries' hledger' c
  obtain ⟨rfl, -⟩ := List.cons.inj (hledger'.symm.trans hledger)
  rw [hledger] at hkept
  have hmem : last.tm ∈ (first :: rest).map DatedSample.tm :=
    List.mem_map_of_mem (h.eq ▸ List.getLastD_mem_cons)
  have hnone : laterDates (first :: rest) last.tm = ∅ := by
    rw [laterDates, Finset.filter_eq_empty_iff]
    intro x hx
    obtain ⟨y, hy, rfl⟩ := List.mem_map.mp (List.mem_toFinset.mp hx)
    exact not_lt.mpr (h.le hy).1
  obtain ⟨i, -, hcount, hunique⟩ := hshows last.tm hmem (by rw [hnone]; exact Nat.zero_lt_succ 61)
  have htail := hunique hist.dailyp (by rw [hkept.tail_eq, hd])
  have hcounter := hcount c
  rw [← htail, hkept.tail_eq, h.lastOn] at hcounter
  rw [hcounter, h.eq]

/-! ## The history over a run -/

/-- A counter that shows nothing at a sample has shown what passes until the next one. -/
def Quiet (s s' : DatedSample) : Prop :=
  ∀ c, s.bytes c % 2 ^ 32 = 0 ∧ s'.bytes c - s.bytes c < 2 ^ 32

theorem quiet_iff {s' : DatedSample} (hle : ∀ c, s.bytes c ≤ s'.bytes c) :
    Quiet s s' ↔ ∀ c, s'.counter c = s'.bytes c - s.bytes c := by
  apply forall_congr'
  intro c
  have h := hle c
  change _ ↔ s'.bytes c % 2 ^ 32 = _
  omega

/-- Nothing passes between samples at which the counters show nothing. -/
theorem bytes_eq_of_quiet (h : Reaches first rest last) (hquiet : (first :: rest).IsChain Quiet)
    (hlast : ∀ c, last.bytes c % 2 ^ 32 = 0) : ∀ x ∈ first :: rest, x.bytes = last.bytes := by
  induction rest generalizing first with
  | nil =>
    intro x hx
    obtain rfl := List.mem_singleton.mp hx
    rw [← h.eq, List.getLastD_nil]
  | cons s rest ih =>
    obtain ⟨heq, horder⟩ := h
    rw [List.isChain_cons_cons] at hquiet
    rw [List.pairwise_cons] at horder
    rw [List.getLastD_cons] at heq
    have hrest := ih ⟨heq, horder.2⟩ hquiet.2
    have hs := hrest s List.mem_cons_self
    have hle := (horder.1 s List.mem_cons_self).bytes
    intro x hx
    rcases List.mem_cons.mp hx with rfl | hx
    · ext c
      have hfirst := hquiet.1 c
      have hzero := hlast c
      have hbytes := hle c
      rw [hs] at hbytes hfirst
      omega
    · exact hrest x hx

/-- A run that goes on by one sample. -/
theorem Reaches.of_concat (horder : (first :: (rest ++ [s])).Pairwise Follows) :
    Reaches first rest (rest.getLastD first) ∧ Follows (rest.getLastD first) s := by
  rw [← List.cons_append, List.pairwise_append] at horder
  obtain ⟨hbefore, -, hcross⟩ := horder
  exact ⟨⟨rfl, hbefore⟩, hcross _ List.getLastD_mem_cons s List.mem_cons_self⟩

theorem isChain_concat_iff {R : DatedSample → DatedSample → Prop} :
    (first :: (rest ++ [s])).IsChain R ↔
      (first :: rest).IsChain R ∧ R (rest.getLastD first) s := by
  obtain ⟨init, hinit⟩ := exists_init first rest
  rw [← List.cons_append, List.isChain_append, hinit]
  simp

/-- While the counters show what passes, all entries are right. -/
theorem allRight_of_quiet (hnow : ∀ s ∈ first :: rest, Y2K < s.now)
    (horder : (first :: rest).Pairwise Follows) (hquiet : (first :: rest).IsChain Quiet) :
    AllRight first rest := by
  induction rest using List.reverseRecOn with
  | nil => exact AllRight.start first
  | append_singleton rest s ih =>
    obtain ⟨hreaches, hfollows⟩ := Reaches.of_concat horder
    obtain ⟨hbefore, hlast⟩ := isChain_concat_iff.mp hquiet
    have hnow' : ∀ x ∈ first :: rest, Y2K < x.now := by
      intro x hx
      apply hnow
      rw [← List.cons_append]
      exact List.mem_append_left [s] hx
    have hall := ih hnow' hreaches.order hbefore
    have hsorted := (running first rest hnow' hreaches.order).kept.sorted
    have hstill := bytes_eq_of_quiet hreaches hbefore fun c => (hlast c).1
    have hshown := (quiet_iff hfollows.bytes).mp hlast
    exact hall.concat hreaches hfollows hsorted
      ((hall.newest hreaches).concat hreaches hfollows hstill hshown)

/-- Behind every sample the daily entries are right if and only if all samples but the last
one find the counters at zero, and less than `2 ^ 32` bytes pass between two samples. -/
theorem history_shows_iff (first : DatedSample) (rest : List DatedSample)
    (hnow : ∀ s ∈ first :: rest, Y2K < s.now) (horder : (first :: rest).Pairwise Follows) :
    (∀ samples, samples <+: rest →
      (history (first :: samples)).hist.Shows first (first :: samples)) ↔
      (first :: rest).IsChain Quiet := by
  constructor
  · intro hshows
    induction rest using List.reverseRecOn with
    | nil => exact List.isChain_singleton first
    | append_singleton rest s ih =>
      obtain ⟨hreaches, hfollows⟩ := Reaches.of_concat horder
      have hnow' : ∀ x ∈ first :: rest, Y2K < x.now := by
        intro x hx
        apply hnow
        rw [← List.cons_append]
        exact List.mem_append_left [s] hx
      have hbefore := ih hnow' hreaches.order fun p hp =>
        hshows p (hp.trans (List.prefix_append rest [s]))
      have hold := newestRight_of_shows hreaches (running first rest hnow' hreaches.order).kept
        (hshows rest (List.prefix_append rest [s]))
      have hnew := newestRight_of_shows ⟨rfl, horder⟩ (running first _ hnow horder).kept
        (hshows _ (List.prefix_refl _))
      have hshown := hold.shown hreaches hfollows hnew
      exact isChain_concat_iff.mpr ⟨hbefore, (quiet_iff hfollows.bytes).mpr hshown⟩
  · intro hquiet samples hlead
    obtain ⟨later, rfl⟩ := hlead
    rw [← List.cons_append] at hnow horder hquiet
    have hnow' : ∀ x ∈ first :: samples, Y2K < x.now := fun x hx =>
      hnow x (List.mem_append_left later hx)
    have horder' := (List.pairwise_append.mp horder).1
    have hall := allRight_of_quiet hnow' horder' (List.isChain_append.mp hquiet).1
    exact hall.shows (running first samples hnow' horder').kept

/-- A sample on the first day of the year 2024. -/
def sampleAt (uptime : ℤ) (bytes : ℕ) : DatedSample where
  uptime := uptime
  bytes _ := bytes
  now := 1704067200 + uptime
  tm := ⟨124, 0, 1, Nat.le_of_ble_eq_true rfl, Nat.zero_lt_succ 11, Nat.one_pos,
    Nat.le_of_ble_eq_true rfl⟩

theorem sampleAt_follows {u u' : ℤ} {b b' : ℕ} (hu : u < u') (hb : b ≤ b') :
    Follows (sampleAt u b) (sampleAt u' b') := ⟨hu, le_rfl, fun _ => hb⟩

theorem history_from_zero :
    (∀ samples, samples <+: [sampleAt 120 1000] →
      (history (sampleAt 60 0 :: samples)).hist.Shows (sampleAt 60 0) (sampleAt 60 0 :: samples)) ↔
      [sampleAt 60 0, sampleAt 120 1000].IsChain Quiet := by
  apply history_shows_iff
  · intro s hs
    rcases List.mem_pair.mp hs with rfl | rfl <;> decide
  · exact List.pairwise_pair.mpr (sampleAt_follows (by decide) (by decide))

/-- 500 bytes pass, and the entry of the day holds 1500. -/
theorem day_counts_total :
    ¬ (history [sampleAt 60 1000, sampleAt 120 1500]).hist.Shows (sampleAt 60 1000)
      [sampleAt 60 1000, sampleAt 120 1500] := by
  intro hshows
  have horder : [sampleAt 60 1000, sampleAt 120 1500].Pairwise Follows :=
    List.pairwise_pair.mpr (sampleAt_follows (by decide) (by decide))
  have hnow : ∀ s ∈ [sampleAt 60 1000, sampleAt 120 1500], Y2K < s.now := by
    intro s hs
    rcases List.mem_pair.mp hs with rfl | rfl <;> decide
  have hright := newestRight_of_shows ⟨rfl, horder⟩ (running _ _ hnow horder).kept hshows
  exact absurd (hright _ _ rfl 0) (by decide)

end EzpFirmware.Stats
