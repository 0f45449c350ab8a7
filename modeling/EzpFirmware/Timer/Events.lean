import EzpFirmware.Lib.LinkedLists
import Mathlib.Algebra.Order.Ring.Int
import Mathlib.Tactic.Ring

/-! # Times of the timer library

`struct timeval` with the macros of sys/time.h that linux_timer.c uses, and its
own rounding up to the granularity of the interval timer. A rounding that
reaches a full second leaves it in the microseconds, which no interval timer
takes.
-/
namespace EzpFirmware.Timer

def US_PER_SEC : ℤ := 1000000

structure Timeval where
  tvSec : ℤ
  tvUsec : ℤ
deriving DecidableEq, Repr

structure Timespec where
  tvSec : ℤ
  tvNsec : ℤ
deriving DecidableEq, Repr

/-- `TIMESPEC_TO_TIMEVAL`. -/
def timespecToTimeval (ts : Timespec) : Timeval := ⟨ts.tvSec, ts.tvNsec.tdiv 1000⟩

def timerclear : Timeval := ⟨0, 0⟩

def timerisset (t : Timeval) : Bool := t.tvSec ≠ 0 || t.tvUsec ≠ 0

/-- `timercmp(a, b, <)`. -/
def timercmpLt (a b : Timeval) : Bool :=
  if a.tvSec = b.tvSec then a.tvUsec < b.tvUsec else a.tvSec < b.tvSec

def timeradd (a b : Timeval) : Timeval :=
  let sec := a.tvSec + b.tvSec
  let usec := a.tvUsec + b.tvUsec
  if 1000000 ≤ usec then ⟨sec + 1, usec - 1000000⟩ else ⟨sec, usec⟩

def timersub (a b : Timeval) : Timeval :=
  let sec := a.tvSec - b.tvSec
  let usec := a.tvUsec - b.tvUsec
  if usec < 0 then ⟨sec - 1, usec + 1000000⟩ else ⟨sec, usec⟩

def roundup (x y : ℤ) : ℤ := (x + y - 1) / y * y

def timerroundup (t : Timeval) (g : ℤ) : Timeval :=
  let t := if timerisset t then t else { t with tvUsec := 1 }
  if t.tvSec = 0 then { t with tvUsec := roundup t.tvUsec g } else t

/-- A `struct timespec` in range. -/
def Timespec.Valid (ts : Timespec) : Prop :=
  0 ≤ ts.tvSec ∧ 0 ≤ ts.tvNsec ∧ ts.tvNsec < 1000 * US_PER_SEC

namespace Timeval

/-- A time as one number of microseconds. -/
def micros (t : Timeval) : ℤ := t.tvSec * US_PER_SEC + t.tvUsec

def ofMicros (n : ℤ) : Timeval := ⟨n / US_PER_SEC, n % US_PER_SEC⟩

/-- The times that `setitimer` takes; it fails with EINVAL on the others. -/
def Valid (t : Timeval) : Prop := 0 ≤ t.tvSec ∧ 0 ≤ t.tvUsec ∧ t.tvUsec < US_PER_SEC

instance : DecidablePred Valid := fun t =>
  inferInstanceAs (Decidable (0 ≤ t.tvSec ∧ 0 ≤ t.tvUsec ∧ t.tvUsec < US_PER_SEC))

variable {a b t : Timeval} {g : ℤ}

@[simp] theorem micros_timerclear : timerclear.micros = 0 := rfl

theorem valid_timerclear : timerclear.Valid := by simp [Valid, timerclear, US_PER_SEC]

@[simp] theorem micros_timersub (a b : Timeval) : (timersub a b).micros = a.micros - b.micros := by
  simp only [timersub, micros, US_PER_SEC]
  split <;> ring

theorem valid_ofMicros {n : ℤ} (hn : 0 ≤ n) : (ofMicros n).Valid := by
  simp only [Valid, ofMicros, US_PER_SEC]
  omega

@[simp] theorem micros_ofMicros (n : ℤ) : (ofMicros n).micros = n := by
  simp only [micros, ofMicros, US_PER_SEC]
  omega

theorem Valid.micros_nonneg (h : t.Valid) : 0 ≤ t.micros := by
  simp only [Valid, micros, US_PER_SEC] at *
  omega

theorem timerisset_iff (h : t.Valid) : timerisset t = true ↔ 0 < t.micros := by
  simp only [Valid, micros, US_PER_SEC] at *
  simp only [timerisset, Bool.or_eq_true, decide_eq_true_eq]
  omega

theorem timercmpLt_iff (ha : a.Valid) (hb : b.Valid) :
    timercmpLt a b = true ↔ a.micros < b.micros := by
  simp only [Valid, micros, US_PER_SEC] at *
  simp only [timercmpLt]
  split <;> rw [decide_eq_true_eq] <;> omega

theorem Valid.timersub (ha : a.Valid) (hb : b.Valid) (h : b.micros ≤ a.micros) :
    (timersub a b).Valid := by
  simp only [Valid, micros, US_PER_SEC, Timer.timersub] at *
  split <;> constructor <;> dsimp only <;> omega

theorem Valid.timeradd (ha : a.Valid) (hb : b.Valid) : (timeradd a b).Valid := by
  simp only [Valid, US_PER_SEC, Timer.timeradd] at *
  split <;> refine ⟨?_, ?_, ?_⟩ <;> dsimp only <;> omega

/-- A difference that is made up for again. -/
theorem valid_timeradd_timersub {r : Timeval} (ha : a.Valid) (hb : b.Valid) (hr : r.Valid)
    (h : r.micros ≤ a.micros + b.micros) : (Timer.timeradd a (Timer.timersub b r)).Valid := by
  simp only [Valid, micros, US_PER_SEC] at *
  rw [Timer.timersub]
  split <;> rw [Timer.timeradd] <;> split <;> refine ⟨?_, ?_, ?_⟩ <;> dsimp only at * <;> omega

theorem valid_timespecToTimeval {ts : Timespec} (h : ts.Valid) :
    (timespecToTimeval ts).Valid := by
  obtain ⟨hs, hn, hlt⟩ := h
  simp only [timespecToTimeval, Int.tdiv_eq_ediv_of_nonneg hn, Valid, US_PER_SEC] at *
  omega

/-! ## Rounding -/

theorem le_roundup (x : ℤ) (hg : 1 ≤ g) : x ≤ roundup x g := by
  have := Int.lt_ediv_add_one_mul_self (x + g - 1) (by omega : 0 < g)
  rw [add_mul, one_mul] at this
  unfold roundup
  omega

theorem roundup_lt (x : ℤ) (hg : 1 ≤ g) : roundup x g < x + g := by
  have := Int.ediv_mul_le (x + g - 1) (by omega : g ≠ 0)
  unfold roundup
  omega

theorem roundup_roundup (x : ℤ) (hg : 1 ≤ g) : roundup (roundup x g) g = roundup x g := by
  have h : roundup (roundup x g) g = ((x + g - 1) / g * g + (g - 1)) / g * g := by
    simp only [roundup]
    congr 2
    ring
  rw [h, add_comm, Int.add_mul_ediv_right _ _ (by omega : g ≠ 0),
    Int.ediv_eq_zero_of_lt (by omega) (by omega), zero_add]
  rfl

/-- A positive number rounds up to at least one granule. -/
theorem granule_le_roundup {x : ℤ} (hx : 0 < x) (hg : 1 ≤ g) : g ≤ roundup x g := by
  have h1 : 1 ≤ (x + g - 1) / g := by
    rw [Int.le_ediv_iff_mul_le (by omega)]
    omega
  have := mul_le_mul_of_nonneg_right h1 (by omega : 0 ≤ g)
  simpa [roundup] using this

/-- What a rounded time is, second by second. -/
theorem timerroundup_eq (h : t.Valid) : timerroundup t g =
    if t.tvSec = 0 then ⟨0, roundup (max t.tvUsec 1) g⟩ else t := by
  obtain ⟨s, u⟩ := t
  simp only [Valid] at h
  by_cases hs : s = 0
  · subst hs
    by_cases hu : u = 0
    · subst hu
      simp [timerroundup, timerisset]
    · have hm : max u 1 = u := by omega
      simp [timerroundup, timerisset, hu, hm]
  · simp [timerroundup, timerisset, hs]

/-- Rounding makes a time later by at most one granule. -/
theorem micros_timerroundup (h : t.Valid) (hg : 1 ≤ g) :
    t.micros ≤ (timerroundup t g).micros ∧ (timerroundup t g).micros ≤ t.micros + g := by
  rw [timerroundup_eq h]
  split
  case isTrue hs =>
    have hle := le_roundup (max t.tvUsec 1) hg
    have hlt := roundup_lt (max t.tvUsec 1) hg
    have hu := h.2.1
    simp only [micros, hs]
    omega
  case isFalse => omega

theorem timerroundup_pos (h : t.Valid) (hg : 1 ≤ g) :
    0 < (timerroundup t g).tvSec ∨ g ≤ (timerroundup t g).tvUsec := by
  rw [timerroundup_eq h]
  split
  · exact Or.inr (granule_le_roundup (by omega) hg)
  · exact Or.inl (lt_of_le_of_ne h.1 (Ne.symm ‹_›))

theorem timerisset_timerroundup (h : t.Valid) (hg : 1 ≤ g) :
    timerisset (timerroundup t g) = true := by
  have := timerroundup_pos h hg
  simp only [timerisset, Bool.or_eq_true, decide_eq_true_eq]
  omega

/-- A time of a whole granule is not as small as half of one. -/
theorem not_lt_half (hv : t.Valid) (ht : 0 < t.tvSec ∨ g ≤ t.tvUsec) :
    timercmpLt t ⟨0, g / 2⟩ = false := by
  simp only [Valid, timercmpLt] at *
  split <;> rw [decide_eq_false_iff_not] <;> omega

theorem timerroundup_timerroundup (h : t.Valid) (hg : 1 ≤ g) :
    timerroundup (timerroundup t g) g = timerroundup t g := by
  rw [timerroundup_eq h]
  split
  case isTrue hs =>
    have hp : 0 < roundup (max t.tvUsec 1) g :=
      lt_of_lt_of_le (by omega) (granule_le_roundup (by omega) hg)
    have hset : timerisset ⟨0, roundup (max t.tvUsec 1) g⟩ = true := by
      simpa [timerisset] using hp.ne'
    simp only [timerroundup, hset, if_true, roundup_roundup _ hg]
  case isFalse hs => rw [timerroundup_eq h, if_neg hs]

/-- The rounding stays a time that `setitimer` takes: it does not reach a full second. -/
def Roundable (g : ℤ) (t : Timeval) : Prop :=
  t.tvSec = 0 → roundup (max t.tvUsec 1) g < US_PER_SEC

instance (g : ℤ) : DecidablePred (Roundable g) := fun t =>
  inferInstanceAs (Decidable (t.tvSec = 0 → roundup (max t.tvUsec 1) g < US_PER_SEC))

theorem valid_timerroundup_iff (h : t.Valid) (hg : 1 ≤ g) :
    (timerroundup t g).Valid ↔ Roundable g t := by
  rw [timerroundup_eq h, Roundable]
  split
  case isTrue hs =>
    have hp := granule_le_roundup (by omega : 0 < max t.tvUsec 1) hg
    simp only [Valid, hs, le_refl, true_and, forall_const]
    omega
  case isFalse hs => simp [h, hs]

end Timeval

/-! ## The event queue of linux_timer.c

The records live in one array, and each field of `struct event` is kept as a
function of the record's index. The queue and the free list are threaded through
the next fields. The first event of the queue runs on the interval timer of the
process, every other event holds its distance from the one before it. `none` is
a call that does not return: a failed assertion, `exit(1)` out of
`check_event_queue`, or a null pointer.
-/

open Lib Function

/-- The events, the globals, the interval timer, and the event whose callback `alarm_handler`
is running. -/
structure Timers where
  itInterval : ℕ → Timeval
  itValue : ℕ → Timeval
  cancelled : ℕ → Bool
  deleted : ℕ → Bool
  next : ℕ → Option ℕ
  eventQueue : Option ℕ
  eventFreelist : Option ℕ
  gGranularity : ℤ
  gMaxevents : ℕ
  itimer : Timeval
  running : Option ℕ

namespace Timers

def setNext (s : Timers) (e : ℕ) (p : Option ℕ) : Timers := { s with next := update s.next e p }

def setValue (s : Timers) (e : ℕ) (v : Timeval) : Timers :=
  { s with itValue := update s.itValue e v }

def setCancelled (s : Timers) (e : ℕ) (b : Bool) : Timers :=
  { s with cancelled := update s.cancelled e b }

def setDeleted (s : Timers) (e : ℕ) (b : Bool) : Timers :=
  { s with deleted := update s.deleted e b }

/-- The queue, as a list threaded through the next fields. -/
def queueAt (s : Timers) : ListAt ℕ := ⟨s.next, s.eventQueue⟩

/-- The free list. -/
def freeAt (s : Timers) : ListAt ℕ := ⟨s.next, s.eventFreelist⟩

/-- `*ppevent = p`, the pointer being that to the head of the queue or to a next field. -/
def store (s : Timers) (ppevent p : Option ℕ) : Timers :=
  { s with next := (s.queueAt.store ppevent p).next
           eventQueue := (s.queueAt.store ppevent p).head }

/-- `setitimer(ITIMER_REAL, ..., NULL)`; a time out of range leaves the timer as it is. -/
def setitimer (s : Timers) (v : Timeval) : Timers := if v.Valid then { s with itimer := v } else s

end Timers

def initEventQueue (n : ℕ) (g : ℤ) : Timers where
  itInterval _ := timerclear
  itValue _ := timerclear
  cancelled _ := false
  deleted _ := false
  next i := if i + 1 < n then some (i + 1) else none
  eventQueue := none
  eventFreelist := if 0 < n then some 0 else none
  gGranularity := g
  gMaxevents := n
  itimer := timerclear
  running := none

/-- The walk of `check_event_queue`, `left` being how many more events it lets pass. -/
def passes (next : ℕ → Option ℕ) : (left : ℕ) → Option ℕ → Bool
  | _, none => true
  | 0, some _ => false
  | left + 1, some e => passes next left (next e)

def checkEventQueue (s : Timers) : Option Timers :=
  if passes s.next (s.gMaxevents + 1) s.eventQueue then some s else none

def timerCreate (s : Timers) : Option (ℕ × Timers) :=
  match s.eventFreelist with
  | none => none
  | some event => do
    let s := (s.setCancelled event false).setDeleted event false
    let s := { s with eventFreelist := s.next event }
    let s ← checkEventQueue (s.setNext event none)
    return (event, s)

/-- The loop that goes down the queue and makes the new event's time relative; it comes to
rest at the pointer the event is to be linked behind. A queue has at most `fuel` events. -/
def march (event : ℕ) : (fuel : ℕ) → (ppevent : Option ℕ) → Timers → Option (Option ℕ × Timers)
  | 0, _, _ => none
  | fuel + 1, ppevent, s =>
    match s.queueAt.deref ppevent with
    | none => some (ppevent, s)
    | some e =>
      if timercmpLt (s.itValue event) (s.itValue e) then
        some (ppevent, s.setValue e (timersub (s.itValue e) (s.itValue event)))
      else
        march event fuel (some e) (s.setValue event (timersub (s.itValue event) (s.itValue e)))

/-- Find the proper place in the queue and link the event there. -/
def enqueue (event : ℕ) (s : Timers) : Option Timers := do
  let (ppevent, s) ← march event (s.gMaxevents + 1) none s
  let s := s.setNext event (s.queueAt.deref ppevent)
  return s.store ppevent (some event)

/-- Round the time of the first event and run the interval timer for it. -/
def reissue (s : Timers) (head : ℕ) : Timers :=
  let s := s.setValue head (timerroundup (s.itValue head) s.gGranularity)
  let itValue := s.itValue head
  let itValue := if timerisset itValue then itValue else ⟨0, 1⟩
  s.setitimer itValue

/-- The assertions that `timer_settime` and `timer_cancel` make before they set the timer. -/
def reissueAsserted (s : Timers) (head : ℕ) : Option Timers :=
  let v := timerroundup (s.itValue head) s.gGranularity
  if 0 < v.tvSec ∨ s.gGranularity ≤ v.tvUsec then some (reissue s head) else none

/-- If the cancelled timer is the next to expire, its remainder goes to the one behind it. -/
def handOn (event : ℕ) (s : Timers) : Timers :=
  match s.next event with
  | none => s
  | some next =>
    if s.eventQueue = some event then
      -- the time left on the interval timer is taken off, not the time that has passed
      let s := s.setValue event (timersub (s.itValue event) s.itimer)
      s.setValue next (timeradd (s.itValue next) (s.itValue event))
    else s

/-- What `timer_cancel` does once it has found the event behind `ppevent`. -/
def cancelAt (event : ℕ) (ppevent : Option ℕ) (s : Timers) : Option Timers :=
  let s := handOn event s
  let s := s.store ppevent (s.next event)
  let s := s.setNext event none
  match s.eventQueue with
  | some head => reissueAsserted s head
  | none => some (s.setitimer timerclear)

def cancelFrom (event : ℕ) : (fuel : ℕ) → (ppevent : Option ℕ) → Timers → Option Timers
  | 0, _, _ => none
  | fuel + 1, ppevent, s =>
    match s.queueAt.deref ppevent with
    | none => some s
    | some e => if e = event then cancelAt event ppevent s else cancelFrom event fuel (some e) s

def timerCancel (event : ℕ) (s : Timers) : Option Timers :=
  if s.cancelled event then some s
  else do
    let s ← cancelFrom event (s.gMaxevents + 1) none s
    return s.setCancelled event true

/-- The return value is 1 for a timer that is already deleted. -/
def timerDelete (event : ℕ) (s : Timers) : Option (ℕ × Timers) :=
  if s.deleted event then some (1, s)
  else do
    let s ← timerCancel event s
    let s := (s.setDeleted event true).setNext event s.eventFreelist
    return (0, { s with eventFreelist := some event })

/-- The first event gives up the part of its interval that is over. -/
def settleHead (s : Timers) : Timers :=
  if timerisset s.itimer then
    match s.eventQueue with
    | none => s
    | some head => if timercmpLt (s.itValue head) s.itimer then s else s.setValue head s.itimer
  else s

/-- If the new event ended up at the front of the queue, the timer is issued again. -/
def reissueIfHead (event : ℕ) (s : Timers) : Option Timers :=
  if s.eventQueue = some event then reissueAsserted s event else some s

def timerSettime (event : ℕ) (itInterval itValue : Timespec) (s : Timers) : Option Timers :=
  let s := { s with itInterval := update s.itInterval event (timespecToTimeval itInterval) }
  let s := s.setValue event (timespecToTimeval itValue)
  if !timerisset (s.itValue event) then timerCancel event s
  else do
    let s := s.setValue event (timerroundup (s.itValue event) s.gGranularity)
    let s ← enqueue event (settleHead s)
    let s ← checkEventQueue s
    let s ← reissueIfHead event s
    return s.setCancelled event false

/-- The top of the loop in `alarm_handler`: take the first event and call its function. -/
def popTop (s : Timers) : Option Timers :=
  match s.eventQueue with
  | none => none
  | some event =>
    let s := { s with eventQueue := s.next event, running := some event }
    some (s.setNext event none)

/-- The handler puts a recurring event back that its function has not cancelled. -/
def recurs (s : Timers) (event : ℕ) : Bool :=
  !s.cancelled event && timerisset (s.itInterval event)

def smallInterval (g : ℤ) : Timeval := ⟨0, g / 2⟩

/-- A recurring event finds its place in the list again. -/
def requeue (event : ℕ) (s : Timers) : Option Timers :=
  if recurs s event then
    enqueue event (s.setValue event (timerroundup (s.itInterval event) s.gGranularity))
  else some s

/-- The end of the loop in `alarm_handler`: either the next event is about to expire as well, or
the timer is issued again. -/
def nextExpiry (s : Timers) : Option Timers :=
  match s.eventQueue with
  | none => some { s with running := none }
  | some head =>
    if timercmpLt (s.itValue head) (smallInterval s.gGranularity) then popTop s
    else some { reissue s head with running := none }

/-- The rest of the loop in `alarm_handler`, after the event's function has returned. -/
def afterCallback (event : ℕ) (s : Timers) : Option Timers := do
  let s ← requeue event s
  let s ← checkEventQueue s
  nextExpiry s

/-! ## Runs -/

inductive Call where
  | create
  | settime (event : ℕ) (itInterval itValue : Timespec)
  | cancel (event : ℕ)
  | delete (event : ℕ)

/-- What can happen: a call, from the program or from a callback; time going by; the expiry of
the interval timer; the return of a callback to `alarm_handler`. -/
inductive Step where
  | call (c : Call)
  | elapse (d : ℤ)
  | alarm
  | callbackDone

def Call.run : Call → Timers → Option Timers
  | create, s => (timerCreate s).map Prod.snd
  | settime event itInterval itValue, s => timerSettime event itInterval itValue s
  | cancel event, s => timerCancel event s
  | delete event, s => (timerDelete event s).map Prod.snd

/-- Time goes by outside the handler, and less of it than the interval timer has left. -/
def elapse (d : ℤ) (s : Timers) : Option Timers :=
  if s.running = none ∧ 0 ≤ d ∧ (d < s.itimer.micros ∨ !timerisset s.itimer) then
    some (if timerisset s.itimer then { s with itimer := .ofMicros (s.itimer.micros - d) } else s)
  else none

def alarmHandler (s : Timers) : Option Timers :=
  if s.running = none ∧ timerisset s.itimer then popTop { s with itimer := timerclear } else none

def Step.run : Step → Timers → Option Timers
  | call c, s => c.run s
  | elapse d, s => Timer.elapse d s
  | alarm, s => alarmHandler s
  | callbackDone, s => s.running.bind fun event => afterCallback event s

end EzpFirmware.Timer
