import EzpFirmware.Timer.Clock

/-!
# Every order of calls and expiries

A run is any sequence of calls, of time going by, of expiries and of callbacks
coming back. As long as only timers are armed that are linked nowhere, the queue
and the free list stay what they are meant to be in every state reached; as long
as no rounding reaches a full second as well, `timer_settime` sorts a timer in
at its expiry and moves no other.
-/
namespace EzpFirmware.Timer

open Lib Function DeltaQueue

/-- What a step asks of the lists: a timer is armed only while it is neither queued nor deleted,
and from its own callback only for one expiry; what is deleted has been created. -/
def Linkable (s : Timers) : Step → Prop
  | .call (.settime t iv v) => timerisset (timespecToTimeval v) = true →
      t < s.gMaxevents ∧ t ∉ s.queue ∧ t ∉ s.freelist ∧
        (s.running = some t → timerisset (timespecToTimeval iv) = false)
  | .call (.delete t) => t < s.gMaxevents ∧ (t ∈ s.freelist → s.deleted t = true)
  | _ => True

/-- What a step asks of the times: they are in range, and so is what the first event of the queue
is rounded to; a first event that is disarmed leaves no negative time behind. -/
def Steady (s : Timers) : Step → Prop
  | .call (.settime t iv v) => iv.Valid ∧ v.Valid ∧
      (if timerisset (timespecToTimeval v) then (timespecToTimeval v).Roundable s.gGranularity
      else HeadSteady s t (timespecToTimeval v))
  | .call (.cancel t) => HeadSteady s t (s.itValue t)
  | .call (.delete t) => HeadSteady s t (s.itValue t)
  | .callbackDone => ∀ t, s.running = some t → CallbackSteady s t
  | _ => True

/-- The timers that are armed after a step: `timer_settime` with a value arms, without one it
disarms as `timer_cancel` and `timer_delete` do; an expiry disarms, and a timer that recurs is
armed again after its callback. -/
def armedAfter (s s' : Timers) (armed : Set ℕ) : Step → Set ℕ
  | .call .create => armed
  | .call (.settime t _ v) =>
      if timerisset (timespecToTimeval v) then insert t armed else armed \ {t}
  | .call (.cancel t) => armed \ {t}
  | .call (.delete t) => armed \ {t}
  | .elapse _ => armed
  | .alarm => armed \ {e | s'.running = some e}
  | .callbackDone =>
      (armed ∪ {e | s.running = some e ∧ recurs s e = true}) \ {e | s'.running = some e}

/-- The states that runs reach whose steps all satisfy `ok`, with the timers armed. -/
inductive Run (n : ℕ) (g : ℤ) (ok : Timers → Step → Prop) : Timers → Set ℕ → Prop where
  | init : Run n g ok (initEventQueue n g) ∅
  | step {s s' : Timers} {armed : Set ℕ} (st : Step) : Run n g ok s armed → ok s st →
      st.run s = some s' → Run n g ok s' (armedAfter s s' armed st)

/-- The invariant of the lists, with the timers armed being those queued. -/
def Sound (s : Timers) (armed : Set ℕ) : Prop :=
  ∃ q f, Lists s q f ∧ HandlerSound s q f ∧ ∀ e, e ∈ armed ↔ e ∈ q

variable {s s' : Timers} {armed : Set ℕ} {n : ℕ} {g : ℤ} {t : ℕ}

theorem initial_path (n : ℕ) (g : ℤ) (i : ℕ) :
    Path (initEventQueue n g).next (if i < n then some i else none) (List.range' i (n - i)) none := by
  obtain ⟨k, hk⟩ : ∃ k, k = n - i := ⟨_, rfl⟩
  induction k generalizing i with
  | zero =>
    rw [← hk, if_neg (by omega)]
    rfl
  | succ k ih =>
    rw [← hk, if_pos (by omega), List.range'_succ]
    refine ⟨rfl, ?_⟩
    rw [show k = n - (i + 1) by omega]
    exact ih (i + 1) (by omega)

theorem sound_init (n : ℕ) (g : ℤ) : Sound (initEventQueue n g) ∅ := by
  refine ⟨[], List.range' 0 n, ⟨rfl, initial_path n g 0, by simp, fun e he => ?_, by simp,
    fun e he => absurd he (by simp [initEventQueue])⟩, fun e he => absurd he (by simp [initEventQueue]),
    by simp⟩
  simpa [initEventQueue] using he

theorem mem_sdiff_iff_erase {q : List ℕ} (hq : q.Nodup) (h : ∀ e, e ∈ armed ↔ e ∈ q) (e : ℕ) :
    e ∈ armed \ {t} ↔ e ∈ q.erase t := by
  rw [Set.mem_sdiff, Set.mem_singleton_iff, h, hq.mem_erase_iff, and_comm]

/-- Every step keeps the invariant of the lists. -/
theorem sound_step {st : Step} (h : Sound s armed) (hok : Linkable s st)
    (hst : st.run s = some s') : Sound s' (armedAfter s s' armed st) := by
  obtain ⟨q, f, hl, hh, harm⟩ := h
  cases st with
  | call c =>
    cases c with
    | create =>
      obtain ⟨⟨e, s₁⟩, hc, rfl⟩ := Option.map_eq_some_iff.mp hst
      obtain ⟨f', rfl, hl', rfl⟩ := timerCreate_lists hl hc
      refine ⟨q, f', hl', fun x hx => ?_, harm⟩
      obtain ⟨hn, hq, hf⟩ := hh x hx
      refine ⟨hn, hq, fun hxf => ?_⟩
      have hxe : x ≠ e := ne_of_mem_of_not_mem hxf (List.nodup_cons.mp hl.free_nodup).1
      exact (update_of_ne hxe _ _).trans (hf (List.mem_cons_of_mem _ hxf))
    | settime t iv v =>
      by_cases hset : timerisset (timespecToTimeval v) = true
      · obtain ⟨ht, htq, htf, hrun⟩ := hok hset
        rw [hl.queue_eq] at htq
        rw [hl.freelist_eq] at htf
        obtain ⟨q', hl', hh', hmem⟩ := timerSettime_lists hl hh hset ht htq htf hrun hst
        refine ⟨q', f, hl', hh', fun e => ?_⟩
        simp [armedAfter, hset, hmem, harm]
      · obtain ⟨hl', hh'⟩ := timerSettime_disarm_lists hl hh (by simpa using hset) hst
        refine ⟨q.erase t, f, hl', hh', fun e => ?_⟩
        rw [armedAfter, if_neg hset]
        exact mem_sdiff_iff_erase hl.queue_nodup harm e
    | cancel t =>
      have hr := timerCancel_removed hl hst
      exact ⟨q.erase t, f, hr.lists hl, hr.handler hh, mem_sdiff_iff_erase hl.queue_nodup harm⟩
    | delete t =>
      obtain ⟨⟨r, s₁⟩, hd, rfl⟩ := Option.map_eq_some_iff.mp hst
      obtain ⟨f', hl', hh'⟩ := timerDelete_lists hl hh hok.1 (hl.freelist_eq ▸ hok.2) hd
      exact ⟨q.erase t, f', hl', hh', mem_sdiff_iff_erase hl.queue_nodup harm⟩
  | elapse d =>
    rw [Step.run, Timer.elapse] at hst
    split at hst
    · obtain rfl := Option.some.inj hst
      split
      · exact ⟨q, f, hl.of_times s.itInterval s.itValue _ s.running, hh, harm⟩
      · exact ⟨q, f, hl, hh, harm⟩
    · exact absurd hst (by simp)
  | alarm =>
    rw [Step.run, alarmHandler] at hst
    split at hst
    · obtain ⟨e, q', rfl, hl', hh', rfl⟩ :=
        popTop_lists (hl.of_times s.itInterval s.itValue timerclear s.running) hst
      refine ⟨q', f, hl', hh', fun x => ?_⟩
      have hnd := List.nodup_cons.mp hl.queue_nodup
      simp only [armedAfter, Set.mem_sdiff, Set.mem_ofPred_eq, Option.some.injEq, harm,
        List.mem_cons]
      constructor
      · rintro ⟨rfl | hx, hne⟩
        · exact absurd rfl hne
        · exact hx
      · exact fun hx => ⟨Or.inr hx, fun hex => hnd.1 (hex ▸ hx)⟩
    · exact absurd hst (by simp)
  | callbackDone =>
    obtain ⟨t, hr, hc⟩ := Option.bind_eq_some_iff.mp hst
    obtain ⟨q', q'', hnd, hmem, hl', hh', hsplit⟩ := afterCallback_lists hl hh hr hc
    refine ⟨q'', f, hl', hh', fun e => ?_⟩
    have hrec : (s.running = some e ∧ recurs s e = true) ↔ e = t ∧ recurs s t = true := by
      rw [hr, Option.some.injEq, eq_comm]
      exact and_congr_right fun het => by rw [het]
    simp only [armedAfter, Set.mem_sdiff, Set.mem_union, Set.mem_ofPred_eq, harm, hrec]
    rw [or_comm, ← hmem, hsplit, List.mem_append, Option.mem_toList]
    rw [hsplit, List.nodup_append] at hnd
    constructor
    · exact fun ⟨he, hne⟩ => he.resolve_left hne
    · exact fun he => ⟨Or.inr he, fun hre => hnd.2.2 e (by simpa using hre) e he rfl⟩

/-- Every step keeps the clock. -/
theorem clock_step {st : Step} (h : Sound s armed) (hc : Clock s s.queue) (hok : Linkable s st)
    (hsteady : Steady s st) (hst : st.run s = some s') : Clock s' s'.queue := by
  have hsound := sound_step h hok hst
  obtain ⟨q, f, hl, hh, -⟩ := h
  rw [hl.queue_eq] at hc
  -- a state whose queue is known keeps its clock
  have hof : ∀ q', s'.queueAt.Holds q' → Clock s' q' → Clock s' s'.queue := by
    intro q' hq' hc'
    obtain ⟨q'', f', hl', -⟩ := hsound
    rwa [hl'.queue_eq, ← Path.unique hq' hl'.queue]
  cases st with
  | call c =>
    cases c with
    | create =>
      obtain ⟨⟨e, s₁⟩, hcr, rfl⟩ := Option.map_eq_some_iff.mp hst
      obtain ⟨f', -, hl', rfl⟩ := timerCreate_lists hl hcr
      exact hof q hl'.queue (hc.of_links _ _ _ _ _)
    | settime t iv v =>
      obtain ⟨hiv, hv, hr⟩ := hsteady
      by_cases hset : timerisset (timespecToTimeval v) = true
      · obtain ⟨ht, htq, htf, -⟩ := hok hset
        rw [hl.queue_eq] at htq
        rw [hl.freelist_eq] at htf
        rw [if_pos hset] at hr
        obtain ⟨s₁, q', hs₁, hl', hc', -⟩ := hc.timerSettime hl hset ht htq htf hiv hv hr
        obtain rfl := Option.some.inj (hs₁.symm.trans hst)
        exact hof q' hl'.queue hc'
      · rw [if_neg hset] at hr
        obtain ⟨s₁, hs₁, hh₁, hc'⟩ := hc.disarm hl (by simpa using hset) hiv hv hr
        obtain rfl := Option.some.inj (hs₁.symm.trans hst)
        exact hof _ hh₁ hc'
    | cancel t =>
      obtain ⟨s₁, hs₁, hc'⟩ := hc.timerCancel hl hsteady
      obtain rfl := Option.some.inj (hs₁.symm.trans hst)
      exact hof _ ((timerCancel_removed hl hst).lists hl).queue hc'
    | delete t =>
      obtain ⟨⟨r, s₁⟩, hd, rfl⟩ := Option.map_eq_some_iff.mp hst
      obtain ⟨f', hl', -⟩ := timerDelete_lists hl hh hok.1 (hl.freelist_eq ▸ hok.2) hd
      obtain ⟨r', s₂, hs₂, hc'⟩ := hc.timerDelete hl hsteady
      obtain ⟨-, rfl⟩ := Prod.mk.inj (Option.some.inj (hs₂.symm.trans hd))
      exact hof _ hl'.queue hc'
  | elapse d =>
    rw [Step.run, Timer.elapse] at hst
    split at hst
    case isTrue hd =>
      obtain rfl := Option.some.inj hst
      exact hof q (by split <;> exact hl.queue) (hc.elapse hd.1 hd.2.1 hd.2.2)
    case isFalse => exact absurd hst (by simp)
  | alarm =>
    rw [Step.run, Timer.alarmHandler] at hst
    split at hst
    case isTrue ha =>
      obtain ⟨s₁, q', hs₁, hq', hc'⟩ := hc.alarmHandler hl ha.1 ha.2
      rw [Timer.alarmHandler, if_pos ha] at hs₁
      obtain rfl := Option.some.inj (hs₁.symm.trans hst)
      exact hof q' hq' hc'
    case isFalse => exact absurd hst (by simp)
  | callbackDone =>
    obtain ⟨t, hr, hcb⟩ := Option.bind_eq_some_iff.mp hst
    obtain ⟨s₁, q', hs₁, hq', hc'⟩ := hc.afterCallback hl hh hr (hsteady t hr)
    obtain rfl := Option.some.inj (hs₁.symm.trans hcb)
    exact hof q' hq' hc'

/-! ## What holds in every state reached -/

/-- The queue and the free list end, visit no event twice and share none, and the timers armed are
exactly those queued. -/
def TwoLists (s : Timers) (armed : Set ℕ) : Prop :=
  ∃ q f, s.queueAt.Holds q ∧ s.freeAt.Holds f ∧ q.Nodup ∧ f.Nodup ∧ (∀ e ∈ q, e ∉ f) ∧
    ∀ e, e ∈ armed ↔ e ∈ q

/-- `timer_settime` puts `t` on the queue to expire at the requested value, at the granularity of
the timer, and leaves every other expiry as it was. -/
def SortsIn (s : Timers) (t : ℕ) (iv v : Timespec) : Prop :=
  ∃ s' x, timerSettime t iv v s = some s' ∧
    AtGranularity s.gGranularity (timespecToTimeval v).micros x ∧
    ∀ u y, (u, y) ∈ s'.expiries ↔ (u = t ∧ y = x) ∨ (u, y) ∈ s.expiries

theorem Sound.twoLists (h : Sound s armed) : TwoLists s armed := by
  obtain ⟨q, f, hl, -, harm⟩ := h
  exact ⟨q, f, hl.queue, hl.free, hl.queue_nodup, hl.free_nodup, hl.disjoint, harm⟩

theorem run_sound {ok : Timers → Step → Prop} (hok : ∀ s st, ok s st → Linkable s st)
    (h : Run n g ok s armed) : Sound s armed := by
  induction h with
  | init => exact sound_init n g
  | step st _ hst hrun ih => exact sound_step ih (hok _ _ hst) hrun

theorem run_clock (hg : 1 ≤ g) (h : Run n g (fun s st => Linkable s st ∧ Steady s st) s armed) :
    Clock s s.queue := by
  induction h with
  | init =>
    have hq : (initEventQueue n g).queue = [] := by
      cases n <;> rfl
    rw [hq]
    exact ⟨⟨hg, by simp, Timeval.valid_timerclear, by simp⟩, fun _ => Timeval.valid_timerclear,
      fun _ => rfl, by simp, by simp⟩
  | step st hr hst hrun ih =>
    exact clock_step (run_sound (fun _ _ h => h.1) hr) ih hst.1 hst.2 hrun

/-- In every run that links no timer twice the two lists are sound in every state reached; and if
its times are steady as well, every `timer_settime` that may come next sorts its timer in. -/
theorem runs_keep_queue (n : ℕ) (g : ℤ) :
    (∀ s armed, Run n g Linkable s armed → TwoLists s armed) ∧
    (1 ≤ g → ∀ s armed, Run n g (fun s st => Linkable s st ∧ Steady s st) s armed →
      ∀ t iv v, timerisset (timespecToTimeval v) = true →
        Linkable s (.call (.settime t iv v)) → Steady s (.call (.settime t iv v)) →
        SortsIn s t iv v) := by
  refine ⟨fun s armed h => (run_sound (fun _ _ h => h) h).twoLists, fun hg s armed h t iv v hset
    hlink hsteady => ?_⟩
  obtain ⟨q, f, hl, -, -⟩ := run_sound (fun _ _ h => h.1) h
  have hc := run_clock hg h
  rw [hl.queue_eq] at hc
  obtain ⟨ht, htq, htf, -⟩ := hlink hset
  rw [hl.queue_eq] at htq
  rw [hl.freelist_eq] at htf
  obtain ⟨hiv, hv, hr⟩ := hsteady
  rw [if_pos hset] at hr
  obtain ⟨s', q', hs', -, -, hex⟩ := hc.timerSettime hl hset ht htq htf hiv hv hr
  refine ⟨s', _, hs', Timeval.micros_timerroundup (Timeval.valid_timespecToTimeval hv)
    hc.granularity, fun u y => ?_⟩
  rw [hex, mem_place]

/-- Full seconds are not rounded. -/
theorem steady_seconds (s : Timers) (t : ℕ) {sec : ℤ} (hsec : 0 < sec) :
    Steady s (.call (.settime t ⟨0, 0⟩ ⟨sec, 0⟩)) := by
  have hset : timerisset (timespecToTimeval ⟨sec, 0⟩) = true := by
    simp [timespecToTimeval, timerisset, hsec.ne']
  refine ⟨by simp [Timespec.Valid, US_PER_SEC], by simp [Timespec.Valid, US_PER_SEC, hsec.le], ?_⟩
  rw [if_pos hset]
  intro hzero
  exact absurd hzero hsec.ne'

/-- The callback of a timer that does not recur comes back, and the next timer keeps its time. -/
theorem steady_callback {u : ℕ} (h : s.running = some t ∧ recurs s t = false ∧
    s.queue.head? = some u ∧ (s.itValue u).Roundable s.gGranularity) : Steady s .callbackDone := by
  obtain ⟨hrun, hrecurs, hhead, hround⟩ := h
  intro t' ht'
  obtain rfl : t = t' := Option.some.inj (hrun.symm.trans ht')
  refine ⟨fun hyes => absurd (hrecurs.symm.trans hyes) Bool.false_ne_true, fun u' hu' => .inl ?_⟩
  obtain rfl : u = u' := Option.some.inj (hhead.symm.trans hu')
  exact hround

theorem Run.mono {ok ok' : Timers → Step → Prop} (h : Run n g ok s armed)
    (hok : ∀ s st, ok s st → ok' s st) : Run n g ok' s armed := by
  induction h with
  | init => exact .init
  | step st _ hst hrun ih => exact ih.step st (hok _ _ hst) hrun

/-- Two timers are armed, the first goes off and its callback comes back. It may be armed again. -/
theorem runs_keep_queue_again : ∃ s armed,
    Run 2 10000 (fun s st => Linkable s st ∧ Steady s st) s armed ∧ TwoLists s armed ∧
      SortsIn s 0 ⟨0, 0⟩ ⟨5, 0⟩ := by
  have hfresh := ((@Run.init 2 10000 fun s st => Linkable s st ∧ Steady s st).step (.call .create)
    ⟨trivial, trivial⟩ rfl).step (.call .create) ⟨trivial, trivial⟩ rfl
  have hfirst := hfresh.step (.call (.settime 0 ⟨0, 0⟩ ⟨5, 0⟩))
    ⟨fun _ => by decide +kernel, steady_seconds _ 0 (by decide)⟩ rfl
  have hboth := (hfirst.step (.elapse 1000000) ⟨trivial, trivial⟩ rfl).step
    (.call (.settime 1 ⟨0, 0⟩ ⟨7, 0⟩))
    ⟨fun _ => by decide +kernel, steady_seconds _ 1 (by decide)⟩ rfl
  have hrun := (hboth.step .alarm ⟨trivial, trivial⟩ rfl).step .callbackDone
    ⟨trivial, @steady_callback _ 0 1 (by decide +kernel)⟩ rfl
  refine ⟨_, _, hrun, (runs_keep_queue 2 10000).1 _ _ (hrun.mono fun _ _ h => h.1),
    (runs_keep_queue 2 10000).2 (by decide) _ _ hrun 0 ⟨0, 0⟩ ⟨5, 0⟩ rfl ?_
      (steady_seconds _ 0 (by decide))⟩
  exact fun _ => by decide +kernel

theorem armedAfter_arm {iv v : Timespec} (hv : timerisset (timespecToTimeval v) = true) :
    armedAfter s s' armed (.call (.settime t iv v)) = insert t armed := if_pos hv

/-- Two timers armed for the same time, the first of them armed again: the second is lost from the
queue, and no call has disarmed it. -/
theorem settime_again_loses : ∃ s armed,
    Run 2 10000 (fun _ _ => True) s armed ∧ ¬ TwoLists s armed := by
  refine ⟨_, _, .step (.call (.settime 0 ⟨0, 0⟩ ⟨7, 0⟩)) (.step (.call (.settime 1 ⟨0, 0⟩ ⟨5, 0⟩))
    (.step (.call (.settime 0 ⟨0, 0⟩ ⟨5, 0⟩)) (.step (.call .create) (.step (.call .create) .init
      trivial rfl) trivial rfl) trivial rfl) trivial rfl) trivial rfl, ?_⟩
  rintro ⟨q, f, hq, -, -, -, -, harm⟩
  obtain rfl : q = [0] := Path.unique hq ⟨rfl, rfl⟩
  rw [armedAfter_arm rfl, armedAfter_arm rfl] at harm
  exact absurd ((harm 1).mp (by simp)) (by simp)

end EzpFirmware.Timer
