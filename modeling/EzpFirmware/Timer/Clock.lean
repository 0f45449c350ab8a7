import EzpFirmware.Timer.Cancel

/-!
# The clock of the queue

What the interval timer and the times of the queue have to do with each other
between the calls, and what each call makes of it. The rounding that reaches a
full second, and a first timer that is disarmed by a zero value, are kept out
here by what the steps ask of the times.
-/
namespace EzpFirmware.Timer

open Lib Function DeltaQueue

/-- The interval timer runs exactly while events are queued; only inside the handler it may be
off, or have just been set for the first event. -/
structure Clock (s : Timers) (q : List ℕ) : Prop extends Timed s q where
  intervals : ∀ e, (s.itInterval e).Valid
  off : q = [] → s.itimer = timerclear
  outside : s.running = none → ∀ h, q.head? = some h → 0 < s.itimer.micros
  inside : s.running ≠ none → ∀ h, q.head? = some h → s.itimer = timerclear ∨
    s.itimer = s.itValue h ∧ (0 < s.itimer.tvSec ∨ s.gGranularity ≤ s.itimer.tvUsec)

variable {s s' : Timers} {q f a b l : List ℕ} {t h : ℕ}

/-- Flags and next fields are no part of the clock. -/
theorem Clock.of_links (hc : Clock s q) (c d : ℕ → Bool) (n : ℕ → Option ℕ) (p p' : Option ℕ) :
    Clock { s with cancelled := c, deleted := d, next := n, eventQueue := p, eventFreelist := p' }
      q :=
  ⟨⟨hc.granularity, hc.times, hc.itimer, hc.ahead⟩, hc.intervals, hc.off, hc.outside, hc.inside⟩

/-- The times of events that are not queued are no part of it either. -/
theorem Clock.of_times (hc : Clock s q) {i w : ℕ → Timeval} (hi : ∀ e, (i e).Valid)
    (hw : ∀ e ∈ q, w e = s.itValue e) : Clock { s with itInterval := i, itValue := w } q := by
  have hh : ∀ h, q.head? = some h → w h = s.itValue h := fun h hh => hw h (List.mem_of_mem_head? hh)
  refine ⟨⟨hc.granularity, fun e he => ?_, hc.itimer, fun h hq => ?_⟩, hi, hc.off, hc.outside,
    fun hrun h hq => ?_⟩
  · dsimp only
    rw [hw e he]
    exact hc.times e he
  · dsimp only
    rw [hh h hq]
    exact hc.ahead h hq
  · dsimp only
    rw [hh h hq]
    exact hc.inside hrun h hq

theorem expiries_of_times (hl : Lists s q f) {i w : ℕ → Timeval} (hw : ∀ e ∈ q, w e = s.itValue e) :
    ({ s with itInterval := i, itValue := w } : Timers).expiries = s.expiries := by
  have hq := hl.queue_eq
  cases q with
  | nil => rw [Timers.expiries, Timers.expiries, hq, (hl.of_times i w s.itimer s.running).queue_eq]
  | cons h l =>
    rw [expiries_cons hq, expiries_cons (hl.of_times i w s.itimer s.running).queue_eq, Timers.left,
      Timers.left]
    dsimp only
    rw [hw h (by simp), deltas_congr fun e he => hw e (by simp [he])]

/-- A timer that runs for what the first event has left. -/
theorem Clock.left_eq (hc : Clock s (h :: l)) : (s.left h).micros ≤ (s.itValue h).micros ∧
    (s.left h).Valid := by
  rw [Timers.left]
  split
  · exact ⟨hc.ahead h rfl, hc.itimer⟩
  · exact ⟨le_rfl, hc.times h (by simp)⟩

/-- The clock after the timer has been set for the first event of the queue. -/
theorem clock_of_set (hg : 1 ≤ s.gGranularity) (hv : ∀ e ∈ h :: l, (s.itValue e).Valid)
    (hi : ∀ e, (s.itInterval e).Valid) (hset : s.itimer = s.itValue h)
    (hpos : 0 < (s.itValue h).tvSec ∨ s.gGranularity ≤ (s.itValue h).tvUsec) : Clock s (h :: l) := by
  have hvh := hv h (by simp)
  have hp : 0 < (s.itValue h).micros := by
    simp only [Timeval.Valid, Timeval.micros, US_PER_SEC] at *
    omega
  refine ⟨⟨hg, hv, hset ▸ hvh, ?_⟩, hi, by simp, fun _ _ _ => hset ▸ hp, fun _ x hx => ?_⟩
  · intro x hx
    obtain rfl : h = x := by simpa using hx
    rw [hset]
  · obtain rfl : h = x := by simpa using hx
    exact Or.inr ⟨hset, hset ▸ hpos⟩

/-- Setting the timer for the first event, its time being one that rounds to a time in range. -/
theorem clock_of_round (hg : 1 ≤ s.gGranularity) (hv : ∀ e ∈ h :: l, (s.itValue e).Valid)
    (hi : ∀ e, (s.itInterval e).Valid) (hr : (s.itValue h).Roundable s.gGranularity) :
    Clock { s with itValue := update s.itValue h (timerroundup (s.itValue h) s.gGranularity)
                   itimer := timerroundup (s.itValue h) s.gGranularity } (h :: l) := by
  have hvh := hv h (by simp)
  have hround := (Timeval.valid_timerroundup_iff hvh hg).mpr hr
  refine clock_of_set hg (fun e he => ?_) hi (by simp) ?_
  · by_cases heh : e = h
    · subst heh
      simpa using hround
    · dsimp only
      rw [update_of_ne heh]
      exact hv e he
  · simpa using Timeval.timerroundup_pos hvh hg

/-! ## `timer_cancel` -/

/-- What becomes the first event once `t`, standing at the time `v`, is cancelled has a time that
is not negative and whose rounding is in range. -/
def HeadSteady (s : Timers) (t : ℕ) (v : Timeval) : Prop :=
  ∀ a b, s.queue = a ++ t :: b → match a, b with
    | [], [] => True
    | [], u :: _ => s.itimer.micros ≤ (s.itValue u).micros + v.micros ∧
        (timeradd (s.itValue u) (timersub v s.itimer)).Roundable s.gGranularity
    | h :: _, _ => (s.itValue h).Roundable s.gGranularity

theorem handed_steady (hl : Lists s (a ++ t :: b) f) (hv : ∀ e ∈ a ++ t :: b, (s.itValue e).Valid)
    (hi : s.itimer.Valid) (hs : HeadSteady s t (s.itValue t)) (hh : (a ++ b).head? = some h) :
    (handed s.itValue s.itimer t a b h).Valid ∧
      (handed s.itValue s.itimer t a b h).Roundable s.gGranularity := by
  replace hs := hs a b hl.queue_eq
  rcases a with _ | ⟨x, a⟩
  · rcases b with _ | ⟨u, b⟩
    · simp at hh
    · obtain rfl : u = h := by simpa using hh
      rw [handed, update_self]
      exact ⟨Timeval.valid_timeradd_timersub (hv u (by simp)) (hv t (by simp)) hi hs.1, hs.2⟩
  · obtain rfl : x = h := by simpa using hh
    exact ⟨hv x (by simp), hs⟩

theorem timerCancel_clock (hl : Lists s (a ++ t :: b) f) (hg : 1 ≤ s.gGranularity)
    (hv : ∀ e ∈ a ++ t :: b, (s.itValue e).Valid) (hi : s.itimer.Valid)
    (hint : ∀ e, (s.itInterval e).Valid) (hs : HeadSteady s t (s.itValue t)) :
    ∃ s', timerCancel t s = some s' ∧ Clock s' (a ++ b) := by
  have hnew := fun h => handed_steady (h := h) hl hv hi hs
  obtain ⟨n, -, hc⟩ := timerCancel_eq hl hg fun h hh => (hnew h hh).1
  refine ⟨_, hc, ?_⟩
  cases hab : a ++ b with
  | nil =>
    exact ⟨⟨hg, by simp, Timeval.valid_timerclear, by simp⟩, hint, fun _ => rfl, by simp, by simp⟩
  | cons h l =>
    have hw : ∀ e ∈ h :: l, (handed s.itValue s.itimer t a b e).Valid := by
      intro e he
      by_cases heh : e = h
      · exact heh ▸ (hnew h (by rw [hab]; rfl)).1
      · rw [← hab] at he
        have het : e ≠ t := by
          have := hl.queue_nodup
          rw [List.nodup_middle] at this
          exact ne_of_mem_of_not_mem he (List.nodup_cons.mp this).1
        have hee : handed s.itValue s.itimer t a b e = s.itValue e := by
          rcases a with _ | ⟨x, a⟩
          · rw [List.nil_append] at hab
            rw [hab, handed, update_of_ne heh, update_of_ne het]
          · rfl
        rw [hee]
        exact hv e (by simp only [List.mem_append, List.mem_cons] at he ⊢; tauto)
    have hr := (hnew h (by rw [hab]; rfl)).2
    have := clock_of_round (s := { s with itValue := handed s.itValue s.itimer t a b }) hg hw hint hr
    simp only [roundHead, countdown, if_pos hr]
    exact this.of_links _ _ _ _ _

/-- Cancelling a timer that is not queued sets its flag. -/
theorem timerCancel_idle (hl : Lists s q f) (htq : t ∉ q) :
    timerCancel t s = some { s with cancelled := update s.cancelled t true } := by
  rw [timerCancel]
  split
  case isTrue hcan => rw [← hcan, update_eq_self]
  case isFalse =>
    have hf := @cancelFrom_notMem _ [] _ _ (s.gMaxevents + 1) (by simpa using hl.queue) htq
      (by have := hl.queue_length; omega)
    rw [show (none : Option ℕ) = placeAfter [] from rfl, hf]
    rfl

/-- `timer_cancel` keeps the clock. -/
theorem Clock.timerCancel (hc : Clock s q) (hl : Lists s q f) (hs : HeadSteady s t (s.itValue t)) :
    ∃ s', timerCancel t s = some s' ∧ Clock s' (q.erase t) := by
  by_cases htq : t ∈ q
  · obtain ⟨a, b, rfl⟩ := List.append_of_mem htq
    have hta : t ∉ a := fun ha => (List.nodup_append.mp hl.queue_nodup).2.2 t ha t (by simp) rfl
    rw [List.erase_append_right _ hta, List.erase_cons_head]
    exact timerCancel_clock hl hc.granularity hc.times hc.itimer hc.intervals hs
  · rw [List.erase_of_not_mem htq]
    exact ⟨_, timerCancel_idle hl htq, hc.of_links _ _ _ _ _⟩

/-- `timer_delete` keeps the clock. -/
theorem Clock.timerDelete (hc : Clock s q) (hl : Lists s q f) (hs : HeadSteady s t (s.itValue t)) :
    ∃ r s', timerDelete t s = some (r, s') ∧ Clock s' (q.erase t) := by
  rw [Timer.timerDelete]
  split
  case isTrue hdel =>
    have htq : t ∉ q := fun htq => hl.disjoint t htq (hl.gone t hdel)
    rw [List.erase_of_not_mem htq]
    exact ⟨1, s, rfl, hc⟩
  case isFalse =>
    obtain ⟨s₁, hs₁, hc₁⟩ := hc.timerCancel hl hs
    refine ⟨0, _, ?_, hc₁.of_links s₁.cancelled (update s₁.deleted t true)
      (update s₁.next t s₁.eventFreelist) s₁.eventQueue (some t)⟩
    rw [hs₁]
    rfl

/-! ## `timer_settime` -/

theorem expiries_of_left (hq : s.queue = h :: l) (hleft : s.left h = s.itValue h) :
    s.expiries = schedule 0 (deltas s.itValue (h :: l)) := by
  rw [expiries_cons hq, hleft, deltas_cons, schedule_cons, zero_add]

/-- The first event brought up to date: its time is then what it has left. -/
theorem settleHead_spec (hc : Clock s q) (hl : Lists s q f) :
    ∃ w, settleHead s = { s with itValue := w } ∧ (∀ e ∉ q, w e = s.itValue e) ∧
      (∀ e ∈ q, (w e).Valid) ∧ (∀ h, q.head? = some h → w h = s.left h) ∧
      schedule 0 (deltas w q) = s.expiries := by
  cases q with
  | nil =>
    have hq : s.eventQueue = none := hl.queue
    refine ⟨s.itValue, ?_, fun _ _ => rfl, by simp, by simp, ?_⟩
    · suffices hset : settleHead s = s from hset
      simp [settleHead, hq]
    · rw [Timers.expiries, hl.queue_eq]
      rfl
  | cons h l =>
    have hq : s.eventQueue = some h := hl.queue.1
    have hhl : h ∉ l := (List.nodup_cons.mp hl.queue_nodup).1
    refine ⟨update s.itValue h (s.left h), ?_, fun e he => ?_, fun e he => ?_, fun x hx => ?_, ?_⟩
    · suffices hset : settleHead s = s.setValue h (s.left h) from hset
      simp only [settleHead, hq, Timers.left]
      by_cases hset : timerisset s.itimer = true
      · have hlt : ¬ timercmpLt (s.itValue h) s.itimer = true := fun hlt =>
          absurd ((Timeval.timercmpLt_iff (hc.times h (by simp)) hc.itimer).mp hlt)
            (not_lt.mpr (hc.ahead h rfl))
        rw [if_pos hset, if_neg hlt, if_pos hset]
      · simp [hset, Timers.setValue]
    · exact update_of_ne (fun heh => he (by simp [heh])) _ _
    · by_cases heh : e = h
      · subst heh
        simpa using hc.left_eq.2
      · rw [update_of_ne heh]
        exact hc.times e he
    · obtain rfl : h = x := by simpa using hx
      exact update_self _ _ _
    · rw [deltas_cons, schedule_cons, update_self, zero_add, deltas_update_of_notMem hhl,
        expiries_cons hl.queue_eq]

/-- `timer_settime` with a value sorts the timer in at its rounded value and moves no other. -/
theorem Clock.timerSettime {iv v : Timespec} (hc : Clock s q) (hl : Lists s q f)
    (hset : timerisset (timespecToTimeval v) = true) (ht : t < s.gMaxevents) (htq : t ∉ q)
    (htf : t ∉ f) (hiv : iv.Valid) (hv : v.Valid)
    (hr : (timespecToTimeval v).Roundable s.gGranularity) :
    ∃ s' q', timerSettime t iv v s = some s' ∧ Lists s' q' f ∧ Clock s' q' ∧ s'.expiries =
      place t (timerroundup (timespecToTimeval v) s.gGranularity).micros s.expiries := by
  have hg := hc.granularity
  have hvv := Timeval.valid_timespecToTimeval hv
  have hx := (Timeval.valid_timerroundup_iff hvv hg).mpr hr
  generalize hxdef : timerroundup (timespecToTimeval v) s.gGranularity = x at *
  have hxx : timerroundup x s.gGranularity = x := by
    rw [← hxdef, Timeval.timerroundup_timerroundup hvv hg]
  have hxpos : 0 < x.tvSec ∨ s.gGranularity ≤ x.tvUsec := hxdef ▸ Timeval.timerroundup_pos hvv hg
  have hxr : x.Roundable s.gGranularity := by
    rw [← Timeval.valid_timerroundup_iff hx hg, hxx]
    exact hx
  -- the new times leave the events queued alone
  have hne : ∀ e ∈ q, e ≠ t := fun e he => ne_of_mem_of_not_mem he htq
  have hl₀ := hl.of_times (update s.itInterval t (timespecToTimeval iv)) (update s.itValue t x)
    s.itimer s.running
  have hint : ∀ e, (update s.itInterval t (timespecToTimeval iv) e).Valid := by
    intro e
    by_cases het : e = t
    · subst het
      simpa using Timeval.valid_timespecToTimeval hiv
    · rw [update_of_ne het]
      exact hc.intervals e
  have hw₀ : ∀ e ∈ q, update s.itValue t x e = s.itValue e := fun e he =>
    update_of_ne (hne e he) _ _
  have hc₀ := hc.of_times hint hw₀
  obtain ⟨w₁, hs₁, hother, hval, hhead, hsched⟩ := settleHead_spec hc₀ hl₀
  rw [expiries_of_times hl hw₀] at hsched
  have hw₁t : w₁ t = x := (hother t htq).trans (update_self _ _ _)
  have hw₁ : ∀ e ∈ t :: q, (w₁ e).Valid := by
    intro e he
    rcases List.mem_cons.mp he with rfl | he
    · exact hw₁t ▸ hx
    · exact hval e he
  -- the event is linked where its absolute expiry belongs
  have hl₁ := hl.of_times (update s.itInterval t (timespecToTimeval iv)) w₁ s.itimer s.running
  obtain ⟨b₁, b₂, w, n, hm, hen, hlists⟩ := enqueue_lists hl₁ ht htq htf
  obtain ⟨hwv, hdel⟩ := hm.times hw₁
  have hmem : ∀ e ∈ b₁ ++ t :: b₂, e ∈ t :: q := fun e he => by
    simp only [hm.split, List.mem_append, List.mem_cons] at he ⊢
    tauto
  have hl₂ := hlists (update s.cancelled t false) (fun e he => update_of_ne he _ _)
    (update_self _ _ _)
  have hok := checkEventQueue_ok (s := { s with itInterval := update s.itInterval t (timespecToTimeval iv)
                                                itValue := w, next := n
                                                eventQueue := (b₁ ++ t :: b₂).head? })
    hl₂.queue (hl₂.queue_length.trans (Nat.le_succ _))
  have hrun : ∀ s₃, reissueIfHead t { s with itInterval := update s.itInterval t (timespecToTimeval iv)
                                             itValue := w, next := n
                                             eventQueue := (b₁ ++ t :: b₂).head? } = some s₃ →
      Timer.timerSettime t iv v s = some (s₃.setCancelled t false) := by
    intro s₃ hs₃
    simp only [Timer.timerSettime, Timers.setValue, update_self, hset, Bool.not_true,
      Bool.false_eq_true, if_false, update_idem, hxdef, hs₁, hen, Option.bind_eq_bind,
      Option.bind_some, hok, hs₃, Option.pure_def]
  have hexp : ∀ s' : Timers, s'.queue = b₁ ++ t :: b₂ → s'.itValue = w →
      (∀ h, (b₁ ++ t :: b₂).head? = some h → s'.left h = w h) →
      s'.expiries = place t x.micros s.expiries := by
    intro s' hq' hw' hleft
    have hsch := schedule_insert t 0 x.micros (deltas w₁ q)
    rw [← hw₁t, ← hdel, hw₁t, zero_add, hsched] at hsch
    rw [← hsch]
    cases hb : b₁ ++ t :: b₂ with
    | nil => simp at hb
    | cons h l =>
      rw [hb] at hq' hleft
      rw [expiries_of_left hq' (by rw [hleft h rfl, hw']), hw']
  rcases b₁ with _ | ⟨h, b₁⟩
  · -- the event is the first: the timer is issued for it
    have hwt : w t = x := (hm.front rfl).trans hw₁t
    have hxset : timerisset x = true := by
      rw [← hxx]
      exact Timeval.timerisset_timerroundup hx hg
    have hwtv : (w t).Valid := hwv t (by simp)
    have hs₃ := reissueAsserted_eq (s := { s with
      itInterval := update s.itInterval t (timespecToTimeval iv)
      itValue := w, next := n, eventQueue := some t }) hwtv hg
    simp only [hwt, hxx, if_pos hxr] at hs₃
    rw [show update w t x = w by rw [← hwt, update_eq_self]] at hs₃
    have hc' := clock_of_set (l := b₂) (s := { s with
      itInterval := update s.itInterval t (timespecToTimeval iv)
      itValue := w, itimer := x }) hg (fun e he => hwv e (hmem e he)) hint hwt.symm
      (by exact hwt ▸ hxpos)
    refine ⟨_, t :: b₂, hrun _ ((if_pos rfl).trans hs₃), hl₂.of_times _ w x s.running,
      hc'.of_links _ _ _ _ _, hexp _ ?_ rfl fun h hh => ?_⟩
    · exact (hl₂.of_times _ w x s.running).queue_eq
    · obtain rfl : t = h := by simpa using hh
      rw [hwt]
      exact if_pos hxset
  · -- the first event stays the first
    have hqh : q.head? = some h := by rw [hm.split]; rfl
    have hht : h ≠ t := hne h (List.mem_of_mem_head? hqh)
    have hwh : w h = s.left h := (hm.first h rfl).trans ((hhead h hqh).trans (by
      simp only [Timers.left, update_of_ne hht]))
    have hset' : timerisset s.itimer = true → w h = s.itimer := fun hi => by
      rw [hwh, Timers.left, if_pos hi]
    have hl₃ := hl₂.of_times (update s.itInterval t (timespecToTimeval iv)) w s.itimer s.running
    refine ⟨_, h :: b₁ ++ t :: b₂, hrun _ (if_neg ?_), hl₃, ?_, hexp _ hl₃.queue_eq rfl
      fun y hy => ?_⟩
    · simpa using hht
    · have hc' : Clock { s with itInterval := update s.itInterval t (timespecToTimeval iv)
                                itValue := w } (h :: b₁ ++ t :: b₂) := by
        refine ⟨⟨hg, fun e he => hwv e (hmem e he), hc.itimer, fun y hy => ?_⟩, hint, by simp,
          fun hrun y hy => hc.outside hrun h hqh, fun hrun y hy => ?_⟩
        · obtain rfl : h = y := by simpa using hy
          by_cases hi : timerisset s.itimer = true
          · exact (congrArg Timeval.micros (hset' hi)).ge
          · have hnn := (hwv h (hmem h (by simp))).micros_nonneg
            rw [Timeval.timerisset_iff hc.itimer] at hi
            exact (not_lt.mp hi).trans hnn
        · obtain rfl : h = y := by simpa using hy
          refine (hc.inside hrun h hqh).imp_right fun hi => ⟨(hset' ?_).symm, hi.2⟩
          have := hi.2
          simp only [timerisset, Bool.or_eq_true, decide_eq_true_eq]
          omega
      exact hc'.of_links _ _ _ _ _
    · obtain rfl : h = y := by simpa using hy
      by_cases hi : timerisset s.itimer = true
      · exact (if_pos hi).trans (hset' hi).symm
      · exact if_neg hi

/-- `timer_settime` without a value keeps the clock where the cancelled time leaves none negative. -/
theorem Clock.disarm {iv v : Timespec} (hc : Clock s q) (hl : Lists s q f)
    (hset : timerisset (timespecToTimeval v) = false) (hiv : iv.Valid) (hv : v.Valid)
    (hs : HeadSteady s t (timespecToTimeval v)) :
    ∃ s', Timer.timerSettime t iv v s = some s' ∧ s'.queueAt.Holds (q.erase t) ∧
      Clock s' (q.erase t) := by
  have hint : ∀ e, (update s.itInterval t (timespecToTimeval iv) e).Valid := by
    intro e
    by_cases het : e = t
    · subst het
      simpa using Timeval.valid_timespecToTimeval hiv
    · rw [update_of_ne het]
      exact hc.intervals e
  have hl₀ := hl.of_times (update s.itInterval t (timespecToTimeval iv))
    (update s.itValue t (timespecToTimeval v)) s.itimer s.running
  suffices h : ∃ s', Timer.timerCancel t
      { s with itInterval := update s.itInterval t (timespecToTimeval iv)
               itValue := update s.itValue t (timespecToTimeval v) } = some s' ∧
      Clock s' (q.erase t) by
    obtain ⟨s', hs', hc'⟩ := h
    refine ⟨s', ?_, ((timerCancel_removed hl₀ hs').lists hl₀).queue, hc'⟩
    simpa only [Timer.timerSettime, Timers.setValue, update_self, hset, Bool.not_false, if_true]
      using hs'
  by_cases htq : t ∈ q
  · obtain ⟨a, b, rfl⟩ := List.append_of_mem htq
    have hta : t ∉ a := fun ha => (List.nodup_append.mp hl.queue_nodup).2.2 t ha t (by simp) rfl
    rw [List.erase_append_right _ hta, List.erase_cons_head]
    refine timerCancel_clock hl₀ hc.granularity (fun e he => ?_) hc.itimer hint ?_
    · by_cases het : e = t
      · subst het
        simpa using Timeval.valid_timespecToTimeval hv
      · dsimp only
        rw [update_of_ne het]
        exact hc.times e he
    · intro a' b' hq
      have hn := hl.queue_nodup
      rw [← hl.queue_eq, show s.queue = a' ++ t :: b' from hq, List.nodup_middle,
        List.nodup_cons, List.mem_append, not_or] at hn
      have h' := hs a' b' hq
      rcases a' with _ | ⟨x, a'⟩
      · rcases b' with _ | ⟨u, b'⟩
        · trivial
        · have hut : u ≠ t := fun hut => hn.1.2 (by simp [hut])
          simpa only [update_of_ne hut, update_self] using h'
      · have hxt : x ≠ t := fun hxt => hn.1.1 (by simp [hxt])
        simpa only [update_of_ne hxt] using h'
  · rw [List.erase_of_not_mem htq]
    exact ⟨_, timerCancel_idle hl₀ htq, (hc.of_times hint fun e he =>
      update_of_ne (ne_of_mem_of_not_mem he htq) _ _).of_links _ _ _ _ _⟩

/-- Time going by keeps the clock. -/
theorem Clock.elapse {d : ℤ} (hc : Clock s q) (hr : s.running = none) (hd : 0 ≤ d)
    (hlt : d < s.itimer.micros ∨ (!timerisset s.itimer) = true) :
    Clock (if timerisset s.itimer then { s with itimer := .ofMicros (s.itimer.micros - d) } else s)
      q := by
  split
  case isTrue hset =>
    have hlt' : d < s.itimer.micros := hlt.resolve_right (by simp [hset])
    have hm := Timeval.micros_ofMicros (s.itimer.micros - d)
    refine ⟨⟨hc.granularity, hc.times, Timeval.valid_ofMicros (by omega), fun h hh => ?_⟩,
      hc.intervals, fun hq => ?_, fun _ h hh => ?_, fun hrun => absurd hr hrun⟩
    · have := hc.ahead h hh
      dsimp only
      omega
    · simp [hc.off hq, timerisset, timerclear] at hset
    · dsimp only
      omega
  case isFalse => exact hc

/-! ## The alarm -/

/-- Taking the first event while the interval timer is off. -/
theorem popTop_clock (hl : Lists s (h :: l) f) (hg : 1 ≤ s.gGranularity)
    (hv : ∀ e ∈ h :: l, (s.itValue e).Valid) (hint : ∀ e, (s.itInterval e).Valid)
    (hi : s.itimer = timerclear) :
    ∃ s', popTop s = some s' ∧ s'.queueAt.Holds l ∧ Clock s' l := by
  have hq : s.eventQueue = some h := hl.queue.1
  have hhl : h ∉ l := (List.nodup_cons.mp hl.queue_nodup).1
  refine ⟨{ s with next := update s.next h none, eventQueue := s.next h, running := some h }, ?_,
    Path.update_of_notMem (show Path s.next (s.next h) l none from hl.queue.2) hhl none,
    ⟨⟨hg, fun e he => hv e (by simp [he]), hi ▸ Timeval.valid_timerclear, fun x hx => ?_⟩, hint,
      fun _ => hi, by simp, fun _ _ _ => Or.inl hi⟩⟩
  · rw [popTop, hq]
    rfl
  · have hxl : x ∈ h :: l := List.mem_cons_of_mem _ (List.mem_of_mem_head? hx)
    simpa [hi] using (hv x hxl).micros_nonneg

theorem Clock.alarmHandler (hc : Clock s q) (hl : Lists s q f) (hr : s.running = none)
    (hi : timerisset s.itimer = true) :
    ∃ s' q', alarmHandler s = some s' ∧ s'.queueAt.Holds q' ∧ Clock s' q' := by
  cases q with
  | nil => simp [hc.off rfl, timerisset, timerclear] at hi
  | cons h l =>
    obtain ⟨s', hs', hq', hc'⟩ := popTop_clock (s := { s with itimer := timerclear })
      (hl.of_times s.itInterval s.itValue timerclear s.running) hc.granularity hc.times hc.intervals
      rfl
    exact ⟨s', l, (if_pos ⟨hr, hi⟩).trans hs', hq', hc'⟩

/-- What the end of a callback asks of the times: no rounding of the interval of an event that
recurs, or of the first event, where that one is next, reaches a full second. -/
def CallbackSteady (s : Timers) (t : ℕ) : Prop :=
  (recurs s t = true → (s.itInterval t).Roundable s.gGranularity) ∧
  ∀ h, s.queue.head? = some h → (s.itValue h).Roundable s.gGranularity ∨
    recurs s t = true ∧
      timercmpLt (timerroundup (s.itInterval t) s.gGranularity) (s.itValue h) = true

/-- The queue once a recurring event is back on it, before the handler looks at the first event. -/
structure Requeued (s : Timers) (q : List ℕ) : Prop where
  times : ∀ e ∈ q, (s.itValue e).Valid
  intervals : ∀ e, (s.itInterval e).Valid
  off : q = [] → s.itimer = timerclear
  roundable : ∀ h, q.head? = some h → (s.itValue h).Roundable s.gGranularity
  small : ∀ h, q.head? = some h →
    timercmpLt (s.itValue h) (smallInterval s.gGranularity) = true → s.itimer = timerclear

theorem Clock.requeue (hc : Clock s q) (hl : Lists s q f) (hh : HandlerSound s q f)
    (hr : s.running = some t) (hs : CallbackSteady s t) :
    ∃ s₁ q₁, requeue t s = some s₁ ∧ Lists s₁ q₁ f ∧ s₁.gGranularity = s.gGranularity ∧
      Requeued s₁ q₁ := by
  have hg := hc.granularity
  obtain ⟨htn, htq, htf⟩ := hh t hr
  -- a first event that has just been set for is not small
  have hsmall : ∀ h, q.head? = some h →
      timercmpLt (s.itValue h) (smallInterval s.gGranularity) = true → s.itimer = timerclear := by
    intro h hqh hlt
    refine (hc.inside (by simp [hr]) h hqh).resolve_right fun ⟨hi, hpos⟩ => ?_
    rw [hi] at hpos
    rw [smallInterval, Timeval.not_lt_half (hc.times h (List.mem_of_mem_head? hqh)) hpos] at hlt
    exact absurd hlt (by simp)
  by_cases hrec : recurs s t = true
  · have hcan : s.cancelled t = false := by simpa using (Bool.and_eq_true_iff.mp hrec).1
    have hint := (Bool.and_eq_true_iff.mp hrec).2
    have htq' : t ∉ q := fun hm => by simp [htq hm] at hint
    have hx := (Timeval.valid_timerroundup_iff (hc.intervals t) hg).mpr (hs.1 hrec)
    have hxpos := Timeval.timerroundup_pos (hc.intervals t) hg
    have hxx := Timeval.timerroundup_timerroundup (hc.intervals t) hg
    have hfirst := hs.2
    generalize hxdef : timerroundup (s.itInterval t) s.gGranularity = x at *
    have hl₁ := hl.of_times s.itInterval (update s.itValue t x) s.itimer s.running
    obtain ⟨b₁, b₂, w, n, hm, hen, hlists⟩ := enqueue_lists hl₁ htn htq' fun hm => by
      simp [htf hm] at hcan
    have hw₀ : ∀ e ∈ q, update s.itValue t x e = s.itValue e := fun e he =>
      update_of_ne (ne_of_mem_of_not_mem he htq') _ _
    obtain ⟨hwv, -⟩ := hm.times fun e he => by
      rcases List.mem_cons.mp he with rfl | he
      · simpa using hx
      · dsimp only
        rw [hw₀ e he]
        exact hc.times e he
    refine ⟨_, b₁ ++ t :: b₂, (if_pos hrec).trans (hxdef.symm ▸ hen),
      hlists s.cancelled (fun _ _ => rfl) hcan, rfl, fun e he => hwv e ?_, hc.intervals, by simp,
      fun h hqh => ?_, fun h hqh hlt => ?_⟩
    · simp only [hm.split, List.mem_append, List.mem_cons] at he ⊢
      tauto
    · rcases b₁ with _ | ⟨y, b₁⟩
      · obtain rfl : t = h := by simpa using hqh
        have hwt : w t = x := (hm.front rfl).trans (update_self _ _ _)
        dsimp only
        rw [hwt, ← Timeval.valid_timerroundup_iff hx hg, hxx]
        exact hx
      · obtain rfl : y = h := by simpa using hqh
        have hqy : q.head? = some y := by rw [hm.split]; rfl
        have hyq := List.mem_of_mem_head? hqy
        have hwy : w y = s.itValue y := (hm.first y rfl).trans (hw₀ y hyq)
        have hbe := hm.behind y rfl
        dsimp only at hbe ⊢
        rw [update_self, hw₀ y hyq] at hbe
        rw [hwy]
        refine (hfirst y (by rwa [hl.queue_eq])).resolve_right fun hx => ?_
        rw [hbe] at hx
        exact absurd hx.2 (by simp)
    · rcases b₁ with _ | ⟨y, b₁⟩
      · obtain rfl : t = h := by simpa using hqh
        have hwt : w t = x := (hm.front rfl).trans (update_self _ _ _)
        dsimp only at hlt
        rw [hwt, smallInterval, Timeval.not_lt_half hx hxpos] at hlt
        exact absurd hlt (by simp)
      · obtain rfl : y = h := by simpa using hqh
        have hqy : q.head? = some y := by rw [hm.split]; rfl
        have hwy : w y = s.itValue y := (hm.first y rfl).trans (hw₀ y (List.mem_of_mem_head? hqy))
        dsimp only at hlt
        rw [hwy] at hlt
        exact hsmall y hqy hlt
  · refine ⟨s, q, if_neg hrec, hl, rfl, hc.times, hc.intervals, hc.off, fun h hqh => ?_, hsmall⟩
    exact (hs.2 h (by rwa [hl.queue_eq])).resolve_right fun hx => hrec hx.1

/-- The end of a callback keeps the clock. -/
theorem Clock.afterCallback (hc : Clock s q) (hl : Lists s q f) (hh : HandlerSound s q f)
    (hr : s.running = some t) (hs : CallbackSteady s t) :
    ∃ s' q', afterCallback t s = some s' ∧ s'.queueAt.Holds q' ∧ Clock s' q' := by
  obtain ⟨s₁, q₁, hs₁, hl₁, hgran, hq₁⟩ := hc.requeue hl hh hr hs
  have hg₁ : 1 ≤ s₁.gGranularity := hgran ▸ hc.granularity
  have hok := checkEventQueue_ok hl₁.queue (hl₁.queue_length.trans (Nat.le_succ _))
  have hrest : Timer.afterCallback t s = nextExpiry s₁ := by
    rw [Timer.afterCallback, hs₁, Option.bind_eq_bind, Option.bind_some, hok]
    rfl
  rw [hrest]
  cases q₁ with
  | nil =>
    have hq : s₁.eventQueue = none := hl₁.queue
    refine ⟨{ s₁ with running := none }, [], by simp [nextExpiry, hq], hl₁.queue,
      ⟨⟨hg₁, by simp, ?_, by simp⟩, hq₁.intervals, hq₁.off, by simp, by simp⟩⟩
    exact (hq₁.off rfl) ▸ Timeval.valid_timerclear
  | cons h l =>
    have hq : s₁.eventQueue = some h := hl₁.queue.1
    by_cases hlt : timercmpLt (s₁.itValue h) (smallInterval s₁.gGranularity) = true
    · obtain ⟨s', hs', hq', hc'⟩ := popTop_clock hl₁ hg₁ hq₁.times hq₁.intervals
        (hq₁.small h rfl hlt)
      refine ⟨s', l, ?_, hq', hc'⟩
      rw [nextExpiry, hq]
      exact (if_pos hlt).trans hs'
    · have hround := hq₁.roundable h rfl
      have hc' := clock_of_round (s := { s₁ with running := none }) hg₁ hq₁.times hq₁.intervals
        hround
      refine ⟨{ reissue s₁ h with running := none }, h :: l, ?_, ?_, ?_⟩
      · rw [nextExpiry, hq]
        exact if_neg hlt
      · rw [reissue_eq (hq₁.times h (by simp)) hg₁]
        exact hl₁.queue
      · rw [reissue_eq (hq₁.times h (by simp)) hg₁, if_pos hround]
        exact hc'

end EzpFirmware.Timer
