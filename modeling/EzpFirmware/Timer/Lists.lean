import EzpFirmware.Timer.Queue
import Mathlib.Data.List.Perm.Subperm

/-!
# The queue and the free list

The invariant of the two lists and what each call does to it. Times play no
part here: whatever the differences and the interval timer hold, the calls keep
two finite lists without a common event, as long as no timer is linked that is
linked already.
-/
namespace EzpFirmware.Timer

open Lib Function

/-- The queue and the free list are two lists that end, over the records allocated. -/
structure Lists (s : Timers) (q f : List ℕ) : Prop where
  queue : s.queueAt.Holds q
  free : s.freeAt.Holds f
  disjoint : ∀ e ∈ q, e ∉ f
  bound : ∀ e, e ∈ q ∨ e ∈ f → e < s.gMaxevents
  live : ∀ e ∈ q, s.cancelled e = false
  gone : ∀ e, s.deleted e = true → e ∈ f

/-- The event whose callback is running is linked again after it only where that does no harm. -/
def HandlerSound (s : Timers) (q f : List ℕ) : Prop :=
  ∀ e, s.running = some e → e < s.gMaxevents ∧
    (e ∈ q → timerisset (s.itInterval e) = false) ∧ (e ∈ f → s.cancelled e = true)

/-- The events of the queue, first to expire first. -/
def Timers.queue (s : Timers) : List ℕ := visit s.next s.gMaxevents s.eventQueue

def Timers.freelist (s : Timers) : List ℕ := visit s.next s.gMaxevents s.eventFreelist

variable {s s' : Timers} {q f a b : List ℕ} {t e : ℕ}

theorem length_le_of_bound {l : List ℕ} {n : ℕ} (hl : l.Nodup) (hb : ∀ e ∈ l, e < n) :
    l.length ≤ n := by
  have hs : l ⊆ List.range n := fun e he => List.mem_range.mpr (hb e he)
  simpa using (hl.subperm hs).length_le

namespace Lists

theorem queue_nodup (h : Lists s q f) : q.Nodup := Path.nodup h.queue

theorem free_nodup (h : Lists s q f) : f.Nodup := Path.nodup h.free

theorem queue_length (h : Lists s q f) : q.length ≤ s.gMaxevents :=
  length_le_of_bound h.queue_nodup fun e he => h.bound e (.inl he)

theorem queue_eq (h : Lists s q f) : s.queue = q := Path.visit_eq h.queue h.queue_length

theorem freelist_eq (h : Lists s q f) : s.freelist = f :=
  Path.visit_eq h.free (length_le_of_bound h.free_nodup fun e he => h.bound e (.inr he))

theorem eventQueue_eq (h : Lists s q f) : s.eventQueue = q.head? := h.queue.head_eq

/-- Times, intervals, the interval timer and the handler are no part of the lists. -/
theorem of_times (h : Lists s q f) (iv w : ℕ → Timeval) (i : Timeval) (r : Option ℕ) :
    Lists { s with itInterval := iv, itValue := w, itimer := i, running := r } q f :=
  ⟨h.queue, h.free, h.disjoint, h.bound, h.live, h.gone⟩

/-- Relinking the queue leaves the free list alone when no free event is touched. -/
theorem free_of_next (h : Lists s q f) {n : ℕ → Option ℕ} (hn : ∀ e ∈ f, n e = s.next e) :
    Path n s.eventFreelist f none := Path.congr h.free hn

end Lists

/-! ## One lemma for each call -/

/-- `timer_create` hands out the first event of the free list. -/
theorem timerCreate_lists (h : Lists s q f) (hc : timerCreate s = some (e, s')) :
    ∃ f', f = e :: f' ∧ Lists s' q f' ∧
      s' = { s with cancelled := update s.cancelled e false
                    deleted := update s.deleted e false
                    next := update s.next e none
                    eventFreelist := f'.head? } := by
  cases f with
  | nil =>
    have hf : s.eventFreelist = none := h.free
    simp [timerCreate, hf] at hc
  | cons x f =>
    have hf : s.eventFreelist = some x := h.free.1
    have hnd := List.nodup_cons.mp h.free_nodup
    have hxq : x ∉ q := fun hx => h.disjoint x hx (by simp)
    have htail : Path s.next (s.next x) f none := h.free.2
    have hn : s.next x = f.head? := ListAt.Holds.head_eq (s := ⟨s.next, s.next x⟩) htail
    have hl : Lists { s with cancelled := update s.cancelled x false
                             deleted := update s.deleted x false
                             next := update s.next x none
                             eventFreelist := f.head? } q f := by
      refine ⟨Path.update_of_notMem h.queue hxq none, ?_, fun e he hef => h.disjoint e he (by simp [hef]),
        fun e he => h.bound e (he.imp_right (by simp +contextual)), fun e he => ?_, fun e he => ?_⟩
      · exact (hn ▸ htail).update_of_notMem hnd.1 none
      · exact (update_of_ne (ne_of_mem_of_not_mem he hxq) _ _).trans (h.live e he)
      · have hex : e ≠ x := fun hex => by simp [hex] at he
        have hde : s.deleted e = true := (update_of_ne hex _ _).symm.trans he
        simpa [hex] using h.gone e hde
    have hok := checkEventQueue_ok hl.queue (hl.queue_length.trans (Nat.le_succ _))
    have hs : timerCreate s = some (x, { s with cancelled := update s.cancelled x false
                                                deleted := update s.deleted x false
                                                next := update s.next x none
                                                eventFreelist := f.head? }) := by
      rw [timerCreate, hf]
      simp only [Timers.setCancelled, Timers.setDeleted, Timers.setNext, hn, hok,
        Option.bind_eq_bind, Option.bind_some, Option.pure_def]
    obtain ⟨rfl, rfl⟩ := Prod.mk.inj (Option.some.inj (hs.symm.trans hc))
    exact ⟨f, rfl, hl, rfl⟩

/-- What a call that takes `t` out of the queue leaves behind. -/
structure Removed (s : Timers) (q : List ℕ) (t : ℕ) (s' : Timers) : Prop where
  frame : ∃ w n i, s' = { s with itValue := w
                                 next := n
                                 itimer := i
                                 eventQueue := (q.erase t).head?
                                 cancelled := update s.cancelled t true }
  path : Path s'.next s'.eventQueue (q.erase t) none
  next : ∀ e ∉ q, s'.next e = s.next e

theorem timerCancel_removed (h : Lists s q f) (hc : timerCancel t s = some s') :
    Removed s q t s' := by
  rw [timerCancel] at hc
  split at hc
  case isTrue hcan =>
    -- a cancelled timer is on no queue
    obtain rfl := Option.some.inj hc
    have htq : t ∉ q := fun ht => by simp [h.live t ht] at hcan
    rw [← List.erase_of_not_mem htq] at h
    refine ⟨⟨s.itValue, s.next, s.itimer, ?_⟩, h.queue, fun _ _ => rfl⟩
    rw [← hcan, update_eq_self, ← h.eventQueue_eq]
  case isFalse =>
    obtain ⟨s₁, hs₁, hs'⟩ := Option.bind_eq_some_iff.mp hc
    obtain rfl : s₁.setCancelled t true = s' := Option.some.inj hs'
    by_cases htq : t ∈ q
    · obtain ⟨a, b, rfl⟩ := List.append_of_mem htq
      have hta : t ∉ a := fun ha =>
        (List.nodup_append.mp h.queue_nodup).2.2 t ha t (by simp) rfl
      have her : (a ++ t :: b).erase t = a ++ b := by
        rw [List.erase_append_right _ hta, List.erase_cons_head]
      rw [show (none : Option ℕ) = placeAfter [] from rfl,
        cancelFrom_mem (by simpa using h.queue) hta
          (by have := h.queue_length; simp at this; omega), List.nil_append] at hs₁
      obtain ⟨n, hp, hn, hat⟩ := cancelAt_spec h.queue
      rw [hat _ rfl] at hs₁
      have hw : ∃ w i, s₁ = { s with itValue := w, next := n, itimer := i,
                                     eventQueue := (a ++ b).head? } := by
        split at hs₁
        · obtain ⟨w, i, rfl⟩ := reissueAsserted_frame hs₁
          exact ⟨w, i, rfl⟩
        · obtain rfl := Option.some.inj hs₁
          obtain ⟨i, hi⟩ := setitimer_frame _ timerclear
          exact ⟨_, i, hi⟩
      obtain ⟨w, i, rfl⟩ := hw
      rw [← her] at hp
      refine ⟨⟨w, n, i, by rw [her]; rfl⟩, ?_, fun e he => hn e ?_ ?_⟩
      · rw [← her]
        exact hp
      · exact fun het => he (by simp [het])
      · exact fun hea => he (by simp [hea])
    · rw [show (none : Option ℕ) = placeAfter [] from rfl,
        cancelFrom_notMem (by simpa using h.queue) htq
          (by have := h.queue_length; omega)] at hs₁
      obtain rfl := Option.some.inj hs₁
      have her := List.erase_of_not_mem htq
      refine ⟨⟨s.itValue, s.next, s.itimer, ?_⟩, ?_, fun _ _ => rfl⟩
      · rw [her, ← h.eventQueue_eq]
        rfl
      · rw [her]
        exact h.queue

theorem Removed.lists (hr : Removed s q t s') (h : Lists s q f) : Lists s' (q.erase t) f := by
  obtain ⟨w, n, i, rfl⟩ := hr.frame
  refine ⟨hr.path, ?_, fun e he => h.disjoint e (List.mem_of_mem_erase he),
    fun e he => h.bound e (he.imp_left List.mem_of_mem_erase), fun e he => ?_, h.gone⟩
  · exact h.free_of_next fun e he => hr.next e fun heq => h.disjoint e heq he
  · have hne : e ≠ t := fun het => h.queue_nodup.not_mem_erase (het ▸ he)
    exact (update_of_ne hne _ _).trans (h.live e (List.mem_of_mem_erase he))

theorem Removed.handler (hr : Removed s q t s') (h : HandlerSound s q f) :
    HandlerSound s' (q.erase t) f := by
  obtain ⟨w, n, i, rfl⟩ := hr.frame
  intro e he
  obtain ⟨hn, hq, hf⟩ := h e he
  refine ⟨hn, fun heq => hq (List.mem_of_mem_erase heq), fun hef => ?_⟩
  by_cases het : e = t
  · simp [het]
  · exact (update_of_ne het _ _).trans (hf hef)

/-- `timer_delete` puts a timer that is not deleted in front of the free list. -/
theorem timerDelete_lists {r : ℕ} (h : Lists s q f) (hh : HandlerSound s q f)
    (ht : t < s.gMaxevents) (htf : t ∈ f → s.deleted t = true)
    (hd : timerDelete t s = some (r, s')) :
    ∃ f', Lists s' (q.erase t) f' ∧ HandlerSound s' (q.erase t) f' := by
  rw [timerDelete] at hd
  split at hd
  case isTrue hdel =>
    obtain ⟨-, rfl⟩ := Prod.mk.inj (Option.some.inj hd)
    have htq : t ∉ q := fun htq => h.disjoint t htq (h.gone t hdel)
    rw [List.erase_of_not_mem htq]
    exact ⟨f, h, hh⟩
  case isFalse hdel =>
    obtain ⟨s₁, hs₁, hs'⟩ := Option.bind_eq_some_iff.mp hd
    obtain ⟨-, rfl⟩ := Prod.mk.inj (Option.some.inj hs')
    have hr := timerCancel_removed h hs₁
    have hl := hr.lists h
    have hhs := hr.handler hh
    have htf : t ∉ f := fun hm => hdel (htf hm)
    have htq : t ∉ q.erase t := h.queue_nodup.not_mem_erase
    have hcan : s₁.cancelled t = true := by
      obtain ⟨w, n, i, rfl⟩ := hr.frame
      exact update_self _ _ _
    have hmax : s₁.gMaxevents = s.gMaxevents := by
      obtain ⟨w, n, i, rfl⟩ := hr.frame
      rfl
    refine ⟨t :: f, ⟨Path.update_of_notMem hl.queue htq _, ⟨rfl, ?_⟩, fun e he => ?_, fun e he => ?_,
      hl.live, fun e he => ?_⟩, fun e he => ?_⟩
    · have hp := Path.update_of_notMem hl.free htf s₁.eventFreelist
      show Path (update s₁.next t s₁.eventFreelist) (update s₁.next t s₁.eventFreelist t) f none
      rw [update_self]
      exact hp
    · simpa using ⟨ne_of_mem_of_not_mem he htq, hl.disjoint e he⟩
    · rcases he with he | he
      · exact hl.bound e (.inl he)
      · rcases List.mem_cons.mp he with rfl | he
        · exact hmax ▸ ht
        · exact hl.bound e (.inr he)
    · by_cases het : e = t
      · simp [het]
      · have hde : s₁.deleted e = true := (update_of_ne het _ _).symm.trans he
        exact List.mem_cons_of_mem _ (hl.gone e hde)
    · obtain ⟨hn, hq, hf⟩ := hhs e he
      refine ⟨hn, hq, fun hef => ?_⟩
      rcases List.mem_cons.mp hef with rfl | hef
      · exact hcan
      · exact hf hef

/-- Linking an event that is linked nowhere. -/
theorem enqueue_lists (h : Lists s q f) (ht : t < s.gMaxevents) (htq : t ∉ q) (htf : t ∉ f) :
    ∃ b₁ b₂ w n, Marched s.itValue t q b₁ b₂ w ∧
      enqueue t s = some { s with itValue := w, next := n
                                  eventQueue := (b₁ ++ t :: b₂).head? } ∧
      ∀ c, (∀ e, e ≠ t → c e = s.cancelled e) → c t = false →
        Lists { s with itValue := w, next := n, eventQueue := (b₁ ++ t :: b₂).head?, cancelled := c }
          (b₁ ++ t :: b₂) f := by
  obtain ⟨b₁, b₂, w, n, hm, hen, hp, hn⟩ := enqueue_spec h.queue htq h.queue_length
  have hmem : ∀ e, e ∈ b₁ ++ t :: b₂ ↔ e = t ∨ e ∈ q := fun e => by
    simp only [hm.split, List.mem_append, List.mem_cons]
    tauto
  refine ⟨b₁, b₂, w, n, hm, hen, fun c hc hct => ⟨hp, ?_, fun e he => ?_, fun e he => ?_,
    fun e he => ?_, h.gone⟩⟩
  · exact h.free_of_next fun e he =>
      hn e (ne_of_mem_of_not_mem he htf) fun heq => h.disjoint e heq he
  · rcases (hmem e).mp he with rfl | he
    · exact htf
    · exact h.disjoint e he
  · rcases he with he | he
    · rcases (hmem e).mp he with rfl | he
      · exact ht
      · exact h.bound e (.inl he)
    · exact h.bound e (.inr he)
  · by_cases het : e = t
    · rw [het]
      exact hct
    · exact (hc e het).trans (h.live e (((hmem e).mp he).resolve_left het))

theorem settleHead_frame (s : Timers) : ∃ w, settleHead s = { s with itValue := w } := by
  rw [settleHead]
  split
  · split
    · exact ⟨s.itValue, rfl⟩
    · split
      · exact ⟨s.itValue, rfl⟩
      · exact ⟨_, rfl⟩
  · exact ⟨s.itValue, rfl⟩

theorem checkEventQueue_eq (h : checkEventQueue s = some s') : s' = s := by
  rw [checkEventQueue] at h
  split at h
  · exact (Option.some.inj h).symm
  · exact absurd h (by simp)

/-- `timer_settime` with a value puts a timer that is linked nowhere on the queue. -/
theorem timerSettime_lists {iv v : Timespec} (h : Lists s q f) (hh : HandlerSound s q f)
    (hset : timerisset (timespecToTimeval v) = true) (ht : t < s.gMaxevents) (htq : t ∉ q)
    (htf : t ∉ f)
    (hrun : s.running = some t → timerisset (timespecToTimeval iv) = false)
    (hc : timerSettime t iv v s = some s') :
    ∃ q', Lists s' q' f ∧ HandlerSound s' q' f ∧ ∀ e, e ∈ q' ↔ e = t ∨ e ∈ q := by
  simp only [timerSettime, Timers.setValue, update_self, hset, Bool.not_true, Bool.false_eq_true,
    if_false] at hc
  obtain ⟨s₁, hs₁, hc₁⟩ := Option.bind_eq_some_iff.mp hc
  obtain ⟨s₂, hs₂, hc₂⟩ := Option.bind_eq_some_iff.mp hc₁
  obtain ⟨s₃, hs₃, hc₃⟩ := Option.bind_eq_some_iff.mp hc₂
  obtain rfl := Option.some.inj hc₃
  rw [checkEventQueue_eq hs₂] at hs₃
  obtain ⟨w₀, hw₀⟩ := settleHead_frame { s with
    itInterval := update s.itInterval t (timespecToTimeval iv)
    itValue := update (update s.itValue t (timespecToTimeval v)) t
      (timerroundup (timespecToTimeval v) s.gGranularity) }
  rw [hw₀] at hs₁
  have h₀ := h.of_times (update s.itInterval t (timespecToTimeval iv)) w₀ s.itimer s.running
  obtain ⟨b₁, b₂, w, n, hm, hen, hl⟩ := enqueue_lists h₀ ht htq htf
  obtain rfl := Option.some.inj (hen.symm.trans hs₁)
  have hmem : ∀ e, e ∈ b₁ ++ t :: b₂ ↔ e = t ∨ e ∈ q := fun e => by
    simp only [hm.split, List.mem_append, List.mem_cons]
    tauto
  -- setting the timer touches no list
  have hw₃ : ∃ w' i, s₃ = { s with itInterval := update s.itInterval t (timespecToTimeval iv)
                                   itValue := w', itimer := i, next := n
                                   eventQueue := (b₁ ++ t :: b₂).head? } := by
    rw [reissueIfHead] at hs₃
    split at hs₃
    · obtain ⟨w', i, rfl⟩ := reissueAsserted_frame hs₃
      exact ⟨w', i, rfl⟩
    · obtain rfl := Option.some.inj hs₃
      exact ⟨w, s.itimer, rfl⟩
  obtain ⟨w', i, rfl⟩ := hw₃
  refine ⟨b₁ ++ t :: b₂, ?_, fun e he => ?_, hmem⟩
  · exact (hl (update s.cancelled t false) (fun e he => update_of_ne he _ _)
      (update_self _ _ _)).of_times _ w' i s.running
  · obtain ⟨hn, hq, hf⟩ := hh e he
    refine ⟨hn, fun heq => ?_, fun hef => ?_⟩
    · by_cases het : e = t
      · subst het
        simpa [Timers.setCancelled] using hrun he
      · exact (congrArg timerisset (update_of_ne het _ _)).trans
          (hq (((hmem e).mp heq).resolve_left het))
    · exact (update_of_ne (ne_of_mem_of_not_mem hef htf) _ _).trans (hf hef)

/-- `timer_settime` without a value takes the timer out of the queue. -/
theorem timerSettime_disarm_lists {iv v : Timespec} (h : Lists s q f) (hh : HandlerSound s q f)
    (hset : timerisset (timespecToTimeval v) = false) (hc : timerSettime t iv v s = some s') :
    Lists s' (q.erase t) f ∧ HandlerSound s' (q.erase t) f := by
  simp only [timerSettime, Timers.setValue, update_self, hset, Bool.not_false, if_true] at hc
  have h₀ := h.of_times (update s.itInterval t (timespecToTimeval iv))
    (update s.itValue t (timespecToTimeval v)) s.itimer s.running
  have hr := timerCancel_removed h₀ hc
  refine ⟨hr.lists h₀, ?_⟩
  obtain ⟨w, n, i, rfl⟩ := hr.frame
  intro e he
  obtain ⟨hn, hq, hf⟩ := hh e he
  refine ⟨hn, fun heq => ?_, fun hef => ?_⟩
  · have het : e ≠ t := fun het => h.queue_nodup.not_mem_erase (het ▸ heq)
    exact (congrArg timerisset (update_of_ne het _ _)).trans (hq (List.mem_of_mem_erase heq))
  · by_cases het : e = t
    · simp [het]
    · exact (update_of_ne het _ _).trans (hf hef)

/-- The handler takes the first event off the queue. -/
theorem popTop_lists (h : Lists s q f) (hp : popTop s = some s') :
    ∃ e q', q = e :: q' ∧ Lists s' q' f ∧ HandlerSound s' q' f ∧
      s' = { s with next := update s.next e none, eventQueue := q'.head?, running := some e } := by
  cases q with
  | nil =>
    have hq : s.eventQueue = none := h.queue
    simp [popTop, hq] at hp
  | cons e q =>
    have hq : s.eventQueue = some e := h.queue.1
    have hnd := List.nodup_cons.mp h.queue_nodup
    have htail : Path s.next (s.next e) q none := h.queue.2
    have hn : s.next e = q.head? := ListAt.Holds.head_eq (s := ⟨s.next, s.next e⟩) htail
    have hef : e ∉ f := h.disjoint e (by simp)
    rw [popTop, hq] at hp
    obtain rfl := Option.some.inj hp
    refine ⟨e, q, rfl, ⟨htail.update_of_notMem hnd.1 none, h.free.update_of_notMem hef none,
      fun x hx => h.disjoint x (by simp [hx]), fun x hx => h.bound x (hx.imp_left (by simp +contextual)),
      fun x hx => h.live x (by simp [hx]), h.gone⟩, fun x hx => ?_, by rw [hn]; rfl⟩
    obtain rfl : e = x := Option.some.inj hx
    exact ⟨h.bound e (.inl (by simp)), fun hm => absurd hm hnd.1, fun hm => absurd hm hef⟩

/-- After a callback the event is back on the queue exactly if it recurs, and the handler either
takes the next event or is done. -/
theorem afterCallback_lists (h : Lists s q f) (hh : HandlerSound s q f) (hr : s.running = some t)
    (hc : afterCallback t s = some s') :
    ∃ q' q'', q'.Nodup ∧ (∀ e, e ∈ q' ↔ (e = t ∧ recurs s t = true) ∨ e ∈ q) ∧
      Lists s' q'' f ∧ HandlerSound s' q'' f ∧ q' = s'.running.toList ++ q'' := by
  obtain ⟨s₁, hs₁, hc₁⟩ := Option.bind_eq_some_iff.mp hc
  obtain ⟨s₂, hs₂, hc₂⟩ := Option.bind_eq_some_iff.mp hc₁
  rw [checkEventQueue_eq hs₂, nextExpiry] at hc₂
  obtain ⟨htn, htq, htf⟩ := hh t hr
  have hq' : ∃ q', Lists s₁ q' f ∧ ∀ e, e ∈ q' ↔ (e = t ∧ recurs s t = true) ∨ e ∈ q := by
    rw [requeue] at hs₁
    split at hs₁
    case isTrue hrec =>
      have hcan : s.cancelled t = false := by simpa using (Bool.and_eq_true_iff.mp hrec).1
      have hint := (Bool.and_eq_true_iff.mp hrec).2
      obtain ⟨b₁, b₂, w, n, hm, hen, hl⟩ := enqueue_lists
        (h.of_times s.itInterval
          (update s.itValue t (timerroundup (s.itInterval t) s.gGranularity)) s.itimer s.running) htn
        (fun hm => by simp [htq hm] at hint) (fun hm => by simp [htf hm] at hcan)
      obtain rfl := Option.some.inj (hen.symm.trans hs₁)
      refine ⟨b₁ ++ t :: b₂, hl s.cancelled (fun _ _ => rfl) hcan, fun e => ?_⟩
      simp only [hm.split, List.mem_append, List.mem_cons, hrec, and_true]
      tauto
    case isFalse hrec =>
      obtain rfl := Option.some.inj hs₁
      exact ⟨q, h, fun e => by simp [hrec]⟩
  obtain ⟨q', hl, hmem⟩ := hq'
  refine ⟨q', ?_⟩
  split at hc₂
  case h_1 hnone =>
    obtain rfl := Option.some.inj hc₂
    exact ⟨q', hl.queue_nodup, hmem, hl.of_times _ _ _ none, fun e he => absurd he (by simp), rfl⟩
  case h_2 head hsome =>
    split at hc₂
    · obtain ⟨e, q'', rfl, hl'', hh'', rfl⟩ := popTop_lists hl hc₂
      exact ⟨q'', hl.queue_nodup, hmem, hl'', hh'', rfl⟩
    · obtain rfl := Option.some.inj hc₂
      obtain ⟨w, i, hi⟩ := reissue_frame s₁ head
      rw [hi]
      exact ⟨q', hl.queue_nodup, hmem, hl.of_times s₁.itInterval w i none,
        fun e he => absurd he (by simp), rfl⟩

end EzpFirmware.Timer
