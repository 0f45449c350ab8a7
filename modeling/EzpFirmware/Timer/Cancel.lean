import EzpFirmware.Timer.Lists

/-!
# Cancelling a timer and the expiry of the others

The first event of the queue expires when the interval timer does, each later
one its difference after its predecessor. `timer_cancel` gives the event behind
a cancelled head the time that has passed instead of the time that is left, and
hands no difference on anywhere else, so the others stay where they are only in
the cases told below.
-/
namespace EzpFirmware.Timer

open Lib Function DeltaQueue

namespace Timers

/-- The time until the first event expires: what the interval timer has left, or, while a
handler has it off, the event's own time. -/
def left (s : Timers) (head : ℕ) : Timeval :=
  if timerisset s.itimer then s.itimer else s.itValue head

/-- The absolute expiry of every queued event, counted from now in microseconds. -/
def expiries (s : Timers) : List (ℕ × ℤ) :=
  match s.queue with
  | [] => []
  | head :: l => (head, (s.left head).micros) ::
      schedule (s.left head).micros (deltas s.itValue l)

end Timers

/-- Queued times and the interval timer are in range, and the timer has no more left than the
first event was given. -/
structure Timed (s : Timers) (q : List ℕ) : Prop where
  granularity : 1 ≤ s.gGranularity
  times : ∀ e ∈ q, (s.itValue e).Valid
  itimer : s.itimer.Valid
  ahead : ∀ h, q.head? = some h → s.itimer.micros ≤ (s.itValue h).micros

variable {s : Timers} {q f a b l : List ℕ} {t h : ℕ}

theorem expiries_cons (hq : s.queue = h :: l) :
    s.expiries = (h, (s.left h).micros) :: schedule (s.left h).micros (deltas s.itValue l) := by
  rw [Timers.expiries, hq]

theorem expiries_fst (s : Timers) : s.expiries.map Prod.fst = s.queue := by
  rw [Timers.expiries]
  cases s.queue with
  | nil => rfl
  | cons h l =>
    rw [List.map_cons, schedule_fst]
    simp [deltas, Function.comp_def]

/-- A queued event has one expiry. -/
theorem expiries_unique (hl : Lists s q f) {u : ℕ} {x y : ℤ} (hx : (u, x) ∈ s.expiries)
    (hy : (u, y) ∈ s.expiries) : x = y := by
  have hn : (s.expiries.map Prod.fst).Nodup := by
    rw [expiries_fst, hl.queue_eq]
    exact hl.queue_nodup
  exact (Prod.mk.inj (List.inj_on_of_nodup_map hn hx hy rfl)).2

/-! ## What a cancelled event leaves behind -/

/-- The times after the new head's has been rounded. -/
def roundHead (g : ℤ) (w : ℕ → Timeval) : List ℕ → ℕ → Timeval
  | [] => w
  | head :: _ => update w head (timerroundup (w head) g)

/-- The interval timer after it has been set for the new head, or turned off. -/
def countdown (g : ℤ) (w : ℕ → Timeval) (r : Timeval) : List ℕ → Timeval
  | [] => timerclear
  | head :: _ => if (w head).Roundable g then timerroundup (w head) g else r

/-- `timer_cancel` of a queued event, in full. -/
theorem timerCancel_eq (hl : Lists s (a ++ t :: b) f) (hg : 1 ≤ s.gGranularity)
    (hv : ∀ h, (a ++ b).head? = some h → (handed s.itValue s.itimer t a b h).Valid) :
    ∃ n, Path n (a ++ b).head? (a ++ b) none ∧ timerCancel t s = some
      { s with itValue := roundHead s.gGranularity (handed s.itValue s.itimer t a b) (a ++ b)
               next := n
               eventQueue := (a ++ b).head?
               itimer := countdown s.gGranularity (handed s.itValue s.itimer t a b) s.itimer (a ++ b)
               cancelled := update s.cancelled t true } := by
  have hta : t ∉ a := fun ha =>
    (List.nodup_append.mp hl.queue_nodup).2.2 t ha t (by simp) rfl
  obtain ⟨n, hp, -, hat⟩ := cancelAt_spec hl.queue
  refine ⟨n, hp, ?_⟩
  have hlen : a.length < s.gMaxevents + 1 := by
    have := hl.queue_length
    simp at this
    omega
  rw [timerCancel, if_neg (by simp [hl.live t (by simp)]),
    show (none : Option ℕ) = placeAfter [] from rfl,
    cancelFrom_mem (by simpa using hl.queue) hta hlen, List.nil_append, hat _ rfl]
  cases hab : a ++ b with
  | nil =>
    rw [List.head?_nil]
    simp [Timers.setitimer, Timeval.valid_timerclear, Timers.setCancelled, roundHead, countdown]
  | cons h l =>
    have hvh := hv h (by rw [hab]; rfl)
    rw [List.head?_cons]
    dsimp only
    have hre := reissueAsserted_eq (s := { s with itValue := handed s.itValue s.itimer t a b
                                                  next := n
                                                  eventQueue := some h }) hvh hg
    rw [hre]
    rfl

/-- The first of two or more: the one behind it is given the time that has passed as well. -/
theorem handed_valid (ht : Timed s (a ++ t :: b)) (hn : (a ++ t :: b).Nodup) :
    ∀ h, (a ++ b).head? = some h → (handed s.itValue s.itimer t a b h).Valid := by
  intro h hh
  cases a with
  | nil =>
    cases b with
    | nil => simp at hh
    | cons u b =>
      obtain rfl : u = h := by simpa using hh
      rw [handed, update_self]
      have hvt := ht.times t (by simp)
      have hvu := ht.times u (by simp)
      exact hvu.timeradd (hvt.timersub ht.itimer (ht.ahead t rfl))
  | cons x a =>
    obtain rfl : x = h := by simpa using hh
    exact ht.times x (by simp)

/-- When the first event expires once the timer has been set for the time `x`: at `x` rounded up,
unless `setitimer` refuses that and the timer runs on as it was. -/
def rearmed (s : Timers) (x : Timeval) : ℤ :=
  if x.Roundable s.gGranularity ∨ timerisset s.itimer = false then
    (timerroundup x s.gGranularity).micros
  else s.itimer.micros

theorem countdown_left {w : ℕ → Timeval} (hv : (w h).Valid) (hg : 1 ≤ s.gGranularity) :
    (if timerisset (countdown s.gGranularity w s.itimer (h :: l)) then
        countdown s.gGranularity w s.itimer (h :: l)
      else roundHead s.gGranularity w (h :: l) h).micros = rearmed s (w h) := by
  have hset := Timeval.timerisset_timerroundup hv hg
  simp only [countdown, roundHead, rearmed, update_self]
  by_cases hr : (w h).Roundable s.gGranularity
  · simp [hr, hset]
  · by_cases hi : timerisset s.itimer = true <;> simp [hr, hi]

/-- The expiries after a queued event has been cancelled. -/
theorem expiries_cancelled (hl : Lists s (a ++ t :: b) f) (ht : Timed s (a ++ t :: b)) :
    ∃ s', timerCancel t s = some s' ∧ Lists s' (a ++ b) f ∧ ∀ h l, a ++ b = h :: l → s'.expiries =
      (h, rearmed s (handed s.itValue s.itimer t a b h)) ::
        schedule (rearmed s (handed s.itValue s.itimer t a b h)) (deltas s.itValue l) := by
  have hn := hl.queue_nodup
  have hv := handed_valid ht hn
  obtain ⟨n, hp, hc⟩ := timerCancel_eq hl ht.granularity hv
  have hl' := (timerCancel_removed hl hc).lists hl
  have hta : t ∉ a := fun ha => (List.nodup_append.mp hn).2.2 t ha t (by simp) rfl
  rw [List.erase_append_right _ hta, List.erase_cons_head] at hl'
  refine ⟨_, hc, hl', fun h l hab => ?_⟩
  have hvh := hv h (by rw [hab]; rfl)
  rw [expiries_cons (hl'.queue_eq.trans hab), Timers.left]
  simp only [hab, countdown_left hvh ht.granularity]
  congr 2
  -- behind the new head the times are those of before
  refine deltas_congr fun e he => ?_
  have hnd : (h :: l).Nodup := hab ▸ hn.sublist (by simp)
  have heh : e ≠ h := ne_of_mem_of_not_mem he (List.nodup_cons.mp hnd).1
  rw [roundHead, update_of_ne heh]
  cases a with
  | cons x a => rfl
  | nil =>
    obtain rfl : b = h :: l := by simpa using hab
    have het : e ≠ t := ne_of_mem_of_not_mem (List.mem_cons_of_mem _ he) (List.nodup_cons.mp hn).1
    rw [handed, update_of_ne heh, update_of_ne het]

/-! ## When the others stay where they are -/

/-- `y` is `x`, made later by what the rounding of one time may add. -/
def AtGranularity (g x y : ℤ) : Prop := x ≤ y ∧ y ≤ x + g

/-- `timer_cancel(t)` takes `t` off the queue and moves no other expiry, but for one rounding of
the new head that they all share. -/
def CancelsAlone (s : Timers) (t : ℕ) : Prop :=
  ∃ s', timerCancel t s = some s' ∧ s'.queue = s.queue.erase t ∧
    ∃ δ, 0 ≤ δ ∧ δ ≤ s.gGranularity ∧
      ∀ u x, u ≠ t → (u, x) ∈ s.expiries → (u, x + δ) ∈ s'.expiries

/-- With `a` before `t` and `b` behind it: nothing else is queued; or `t` is first and the time that
has passed does for the time that is left; or `t` is further back, the first event has just been
set, and no difference is lost. -/
def Harmless (s : Timers) (t : ℕ) : List ℕ → List ℕ → Prop
  | [], [] => True
  | [], u :: _ => AtGranularity s.gGranularity ((s.left t).micros + (s.itValue u).micros)
      (rearmed s (timeradd (s.itValue u) (timersub (s.itValue t) s.itimer)))
  | h :: _, b => AtGranularity s.gGranularity (s.left h).micros (rearmed s (s.itValue h)) ∧
      (b = [] ∨ (s.itValue t).micros = 0)

/-- Where `t` stands in the queue, cancelling it does no harm. -/
def Undisturbing (s : Timers) (t : ℕ) : Prop := ∀ a b, s.queue = a ++ t :: b → Harmless s t a b

theorem undisturbing_iff (hl : Lists s (a ++ t :: b) f) : Undisturbing s t ↔ Harmless s t a b := by
  have hq := hl.queue_eq
  have hn := List.nodup_append.mp hl.queue_nodup
  have hta : t ∉ a := fun ha => hn.2.2 t ha t (by simp) rfl
  have htb : t ∉ b := (List.nodup_cons.mp hn.2.1).1
  constructor
  · exact fun h => h a b hq
  · intro h a' b' hq'
    obtain ⟨rfl, -, rfl⟩ := (List.append_cons_inj_of_notMem hta htb).mp (hq.symm.trans hq')
    exact h

/-- Expiries behind a first event move with it. -/
theorem mem_moved {x : ℤ} (x' : ℤ) {d : List (ℕ × ℤ)} {v : ℕ} {y : ℤ}
    (hm : (v, y) ∈ (h, x) :: schedule x d) :
    (v, y + (x' - x)) ∈ (h, x') :: schedule x' d := by
  rcases List.mem_cons.mp hm with hm | hm
  · obtain ⟨rfl, rfl⟩ := Prod.mk.inj hm
    simp
  · exact List.mem_cons_of_mem _ (mem_schedule_moved x' hm)

/-- The first event cancelled: the one behind it expires when the timer is next set for. -/
theorem cancelsAlone_first {u : ℕ} (hl : Lists s (t :: u :: b) f) (ht : Timed s (t :: u :: b)) :
    CancelsAlone s t ↔ AtGranularity s.gGranularity ((s.left t).micros + (s.itValue u).micros)
      (rearmed s (timeradd (s.itValue u) (timersub (s.itValue t) s.itimer))) := by
  obtain ⟨s', hc, hl', hex⟩ := expiries_cancelled (a := []) (b := u :: b) hl ht
  have hw : handed s.itValue s.itimer t [] (u :: b) u =
      timeradd (s.itValue u) (timersub (s.itValue t) s.itimer) := update_self _ _ _
  replace hex := hex u b rfl
  rw [hw] at hex
  have hs := expiries_cons hl.queue_eq
  rw [deltas_cons, schedule_cons] at hs
  constructor
  · rintro ⟨s₁, hc₁, -, δ, hδ, hδg, hall⟩
    obtain rfl := Option.some.inj (hc.symm.trans hc₁)
    have hut : u ≠ t := fun h => (List.nodup_cons.mp hl.queue_nodup).1 (by simp [h])
    have hu := hall u ((s.left t).micros + (s.itValue u).micros) hut (by rw [hs]; simp)
    have := expiries_unique hl' hu (by rw [hex]; exact List.mem_cons_self ..)
    constructor <;> omega
  · rintro ⟨hle, hge⟩
    refine ⟨s', hc, ?_, rearmed s (timeradd (s.itValue u) (timersub (s.itValue t) s.itimer)) -
      ((s.left t).micros + (s.itValue u).micros), by omega, by omega, fun v x hvt hx => ?_⟩
    · rw [hl'.queue_eq, hl.queue_eq, List.erase_cons_head]
      rfl
    · rw [hs] at hx
      rw [hex]
      rcases List.mem_cons.mp hx with hx | hx
      · exact absurd (Prod.mk.inj hx).1 hvt
      · exact mem_moved _ hx

/-- An event further back cancelled: the timer is set again for the first event, and the difference
of the cancelled one is lost. -/
theorem cancelsAlone_later (hl : Lists s (h :: a ++ t :: b) f) (ht : Timed s (h :: a ++ t :: b)) :
    CancelsAlone s t ↔
      AtGranularity s.gGranularity (s.left h).micros (rearmed s (s.itValue h)) ∧
        (b = [] ∨ (s.itValue t).micros = 0) := by
  obtain ⟨s', hc, hl', hex⟩ := expiries_cancelled hl ht
  replace hex := hex h (a ++ b) rfl
  rw [show handed s.itValue s.itimer t (h :: a) b h = s.itValue h from rfl, deltas_append,
    schedule_append] at hex
  have hs := expiries_cons (hl.queue_eq.trans (List.cons_append ..))
  rw [deltas_append, deltas_cons, schedule_append, schedule_cons] at hs
  have hn := List.nodup_append.mp hl.queue_nodup
  have hta : t ∉ h :: a := fun ha => hn.2.2 t ha t (by simp) rfl
  have htb : t ∉ b := (List.nodup_cons.mp hn.2.1).1
  constructor
  · rintro ⟨s₁, hc₁, -, δ, hδ, hδg, hall⟩
    obtain rfl := Option.some.inj (hc.symm.trans hc₁)
    have hht : h ≠ t := fun hht => hta (by simp [hht])
    have hh := hall h (s.left h).micros hht (by rw [hs]; simp)
    have heq := expiries_unique hl' hh (by rw [hex]; exact List.mem_cons_self ..)
    refine ⟨⟨by omega, by omega⟩, ?_⟩
    cases b with
    | nil => exact Or.inl rfl
    | cons u b =>
      right
      have hut : u ≠ t := fun hut => htb (by simp [hut])
      rw [deltas_cons, schedule_cons] at hs hex
      have hu := hall u ((s.left h).micros + total (deltas s.itValue a) + (s.itValue t).micros +
        (s.itValue u).micros) hut (by rw [hs]; simp)
      have hu' : (u, rearmed s (s.itValue h) + total (deltas s.itValue a) + (s.itValue u).micros) ∈
          s'.expiries := by rw [hex]; simp
      have := expiries_unique hl' hu hu'
      omega
  · rintro ⟨⟨hle, hge⟩, hlost⟩
    refine ⟨s', hc, ?_, rearmed s (s.itValue h) - (s.left h).micros, by omega, by omega,
      fun v x hvt hx => ?_⟩
    · rw [hl'.queue_eq, hl.queue_eq, List.erase_append_right _ hta, List.erase_cons_head]
    · rw [hex, ← schedule_append, ← deltas_append]
      refine mem_moved _ ?_
      rw [hs] at hx
      rw [deltas_append, schedule_append]
      simp only [List.mem_cons, List.mem_append, Prod.mk.injEq] at hx ⊢
      rcases hx with hx | hx | ⟨hx, -⟩ | hx
      · exact Or.inl hx
      · exact Or.inr (Or.inl hx)
      · exact absurd hx hvt
      · rcases hlost with rfl | hd
        · simp at hx
        · rw [hd, add_zero] at hx
          exact Or.inr (Or.inr hx)

/-- The only event queued. -/
theorem cancelsAlone_single (hl : Lists s [t] f) (ht : Timed s [t]) : CancelsAlone s t := by
  obtain ⟨s', hc, hl', -⟩ := expiries_cancelled (a := []) (b := []) hl ht
  refine ⟨s', hc, ?_, 0, le_rfl, by have := ht.granularity; omega, fun u x hut hx => ?_⟩
  · rw [hl'.queue_eq, hl.queue_eq, List.erase_cons_head]
    rfl
  · rw [expiries_cons hl.queue_eq] at hx
    simp [hut] at hx

/-- Cancelling a queued timer moves no other exactly where it stands harmlessly. -/
theorem timerCancel_alone_iff (s : Timers) (q f : List ℕ) (t : ℕ) (hl : Lists s q f)
    (ht : Timed s q) (hq : t ∈ q) : CancelsAlone s t ↔ Undisturbing s t := by
  obtain ⟨a, b, rfl⟩ := List.append_of_mem hq
  rw [undisturbing_iff hl]
  rcases a with _ | ⟨h, a⟩
  · rcases b with _ | ⟨u, b⟩
    · exact iff_of_true (cancelsAlone_single hl ht) trivial
    · exact cancelsAlone_first hl ht
  · exact cancelsAlone_later hl ht

/-- Two timers, 5 s and 8 s away and just set: a timer queue of its own. -/
def fiveAndEight : Timers where
  itInterval _ := timerclear
  itValue e := if e = 0 then ⟨5, 0⟩ else ⟨3, 0⟩
  cancelled _ := false
  deleted _ := false
  next e := if e = 0 then some 1 else none
  eventQueue := some 0
  eventFreelist := none
  gGranularity := 10000
  gMaxevents := 2
  itimer := ⟨5, 0⟩
  running := none

theorem fiveAndEight_lists : Lists fiveAndEight [0, 1] [] where
  queue := ⟨rfl, rfl, rfl⟩
  free := rfl
  disjoint := by simp
  bound := by simp [fiveAndEight]
  live := by simp [fiveAndEight]
  gone := by simp [fiveAndEight]

theorem fiveAndEight_timed : Timed fiveAndEight [0, 1] where
  granularity := by decide
  times := by decide
  itimer := by decide
  ahead := by simp [fiveAndEight]

theorem timerCancel_alone_iff_last : CancelsAlone fiveAndEight 1 ↔ Undisturbing fiveAndEight 1 :=
  timerCancel_alone_iff fiveAndEight [0, 1] [] 1 fiveAndEight_lists fiveAndEight_timed (by simp)

/-- The timer 5 s away cancelled at once: the one 8 s away fires after 3 s. -/
theorem timerCancel_early : ¬ CancelsAlone fiveAndEight 0 := by
  rw [cancelsAlone_first fiveAndEight_lists fiveAndEight_timed, AtGranularity]
  decide

end EzpFirmware.Timer
