import EzpFirmware.Lib.DeltaQueue
import EzpFirmware.Timer.Events

/-!
# What the queue operations do to the lists

The loops over pointers to pointers, told as operations on lists: the march of
a new event ends between two of the events queued, with the differences changed
as insertion by differences changes them, and taking an event out leaves the
others in their order.
-/
namespace EzpFirmware.Timer

open Lib Function DeltaQueue

/-- The events with their times, as differences. -/
def deltas (w : ℕ → Timeval) (l : List ℕ) : List (ℕ × ℤ) := l.map fun e => (e, (w e).micros)

@[simp] theorem deltas_nil (w : ℕ → Timeval) : deltas w [] = [] := rfl

@[simp] theorem deltas_cons (w : ℕ → Timeval) (e : ℕ) (l : List ℕ) :
    deltas w (e :: l) = (e, (w e).micros) :: deltas w l := rfl

theorem deltas_append (w : ℕ → Timeval) (a b : List ℕ) :
    deltas w (a ++ b) = deltas w a ++ deltas w b := List.map_append

theorem deltas_congr {w w' : ℕ → Timeval} {l : List ℕ} (h : ∀ e ∈ l, w e = w' e) :
    deltas w l = deltas w' l := List.map_congr_left fun e he => by rw [h e he]

theorem deltas_update_of_notMem {w : ℕ → Timeval} {l : List ℕ} {t : ℕ} (ht : t ∉ l)
    (v : Timeval) : deltas (update w t v) l = deltas w l :=
  deltas_congr fun _ he => update_of_ne (ne_of_mem_of_not_mem he ht) _ _

theorem passes_of_path {next : ℕ → Option ℕ} {p : Option ℕ} {l : List ℕ}
    (h : Path next p l none) {k : ℕ} (hk : l.length ≤ k) : passes next k p = true := by
  induction l generalizing p k with
  | nil =>
    obtain rfl : p = none := h
    cases k <;> rfl
  | cons e l ih =>
    obtain ⟨rfl, h⟩ := h
    cases k with
    | zero => simp at hk
    | succ k => exact ih h (by simpa using hk)

variable {s : Timers} {a b q f : List ℕ} {t : ℕ}

theorem checkEventQueue_ok (h : s.queueAt.Holds q) (hq : q.length ≤ s.gMaxevents + 1) :
    checkEventQueue s = some s := by
  have hp : passes s.next (s.gMaxevents + 1) s.eventQueue = true :=
    passes_of_path (show Path s.next s.eventQueue q none from h) hq
  rw [checkEventQueue, if_pos hp]

/-- Where the march of `t` through `b` comes to rest, and the times it leaves behind. -/
structure Marched (v : ℕ → Timeval) (t : ℕ) (b b₁ b₂ : List ℕ) (w : ℕ → Timeval) : Prop where
  split : b = b₁ ++ b₂
  others : ∀ e, e ≠ t → e ∉ b → w e = v e
  first : ∀ h, b₁.head? = some h → w h = v h
  front : b₁ = [] → w t = v t
  behind : ∀ h, b₁.head? = some h → timercmpLt (v t) (v h) = false
  times : (∀ e ∈ t :: b, (v e).Valid) → (∀ e ∈ t :: b, (w e).Valid) ∧
    deltas w (b₁ ++ t :: b₂) = DeltaQueue.insert t (v t).micros (deltas v b)

theorem march_spec {fuel : ℕ} (h : s.queueAt.Holds (a ++ b)) (ht : t ∉ a ++ b)
    (hf : b.length < fuel) : ∃ b₁ b₂ w,
      march t fuel (placeAfter a) s = some (placeAfter (a ++ b₁), { s with itValue := w }) ∧
      Marched s.itValue t b b₁ b₂ w := by
  induction b generalizing a fuel s with
  | nil =>
    obtain ⟨fuel, rfl⟩ := Nat.exists_eq_add_of_lt hf
    refine ⟨[], [], s.itValue, ?_, rfl, fun _ _ _ => rfl, by simp, fun _ => rfl,
      by simp, fun hv => ⟨hv, rfl⟩⟩
    rw [march, ListAt.deref_nil (a := a) (by simpa using h), List.append_nil]
  | cons e b ih =>
    obtain ⟨fuel, rfl⟩ := Nat.exists_eq_add_of_lt hf
    have hnd := (List.nodup_append.mp (Path.nodup h)).2.1
    have heb : e ∉ b := (List.nodup_cons.mp hnd).1
    simp only [List.mem_append, List.mem_cons, not_or] at ht
    obtain ⟨hta, hte, htb⟩ := ht
    rw [show (e :: b).length + fuel + 1 = ((e :: b).length + fuel) + 1 from rfl, march,
      ListAt.deref_cons h]
    dsimp only
    by_cases hlt : timercmpLt (s.itValue t) (s.itValue e) = true
    · -- the new event is due before `e`, whose difference shrinks
      refine ⟨[], e :: b, update s.itValue e (timersub (s.itValue e) (s.itValue t)), ?_, rfl, ?_,
        by simp, fun _ => update_of_ne hte _ _, by simp, fun hv => ?_⟩
      · rw [if_pos hlt, List.append_nil]
        rfl
      · exact fun x _ hx => update_of_ne (fun hxe => hx (by simp [hxe])) _ _
      · have hvt := hv t (by simp)
        have hve := hv e (by simp)
        have hm := (Timeval.timercmpLt_iff hvt hve).mp hlt
        refine ⟨fun x hx => ?_, ?_⟩
        · by_cases hxe : x = e
          · subst hxe
            simpa using hve.timersub hvt hm.le
          · rw [update_of_ne hxe]
            exact hv x hx
        · simp [DeltaQueue.insert, hm, update_of_ne hte, deltas_update_of_notMem heb]
    · rw [if_neg hlt]
      obtain ⟨b₁, b₂, w, hw, hm⟩ := @ih (s.setValue t (timersub (s.itValue t) (s.itValue e)))
        (a ++ [e]) ((e :: b).length + fuel)
        (by rw [List.append_assoc]; exact h) (by simp [hta, hte, htb]) (by simp; omega)
      have hwe : w e = s.itValue e := by
        rw [hm.others e (Ne.symm hte) heb]
        exact update_of_ne (Ne.symm hte) _ _
      refine ⟨e :: b₁, b₂, w, ?_, by rw [hm.split]; rfl, fun x hxt hx => ?_, by simp [hwe],
        by simp, by simpa using hlt, fun hv => ?_⟩
      · rw [List.append_cons]
        simpa [placeAfter] using (show march t _ _ _ =
          some (placeAfter (a ++ [e] ++ b₁), { s with itValue := w }) from hw)
      · rw [hm.others x hxt fun hxb => hx (by simp [hxb])]
        exact update_of_ne hxt _ _
      · have hvt := hv t (by simp)
        have hve := hv e (by simp)
        have hle : (s.itValue e).micros ≤ (s.itValue t).micros :=
          not_lt.mp fun hc => hlt ((Timeval.timercmpLt_iff hvt hve).mpr hc)
        have hb : ∀ x ∈ b, (s.setValue t (timersub (s.itValue t) (s.itValue e))).itValue x =
            s.itValue x := fun x hx => update_of_ne (ne_of_mem_of_not_mem hx htb) _ _
        obtain ⟨hw', hd⟩ := hm.times fun x hx => by
          rcases List.mem_cons.mp hx with rfl | hx
          · simpa [Timers.setValue] using hvt.timersub hve hle
          · rw [hb x hx]
            exact hv x (by simp [hx])
        refine ⟨fun x hx => ?_, ?_⟩
        · rcases List.mem_cons.mp hx with rfl | hx
          · exact hw' x (by simp)
          · rcases List.mem_cons.mp hx with rfl | hx
            · rw [hwe]
              exact hve
            · exact hw' x (by simp [hx])
        · rw [List.cons_append, deltas_cons, hd, hwe, deltas_congr hb]
          simp [DeltaQueue.insert, Timers.setValue, hle.not_gt]

/-- `enqueue` puts an event that is not queued in its place and touches only the events queued. -/
theorem enqueue_spec (h : s.queueAt.Holds q) (ht : t ∉ q) (hq : q.length ≤ s.gMaxevents) :
    ∃ b₁ b₂ w n, Marched s.itValue t q b₁ b₂ w ∧
      enqueue t s = some { s with itValue := w, next := n, eventQueue := (b₁ ++ t :: b₂).head? } ∧
      Path n (b₁ ++ t :: b₂).head? (b₁ ++ t :: b₂) none ∧ ∀ e, e ≠ t → e ∉ q → n e = s.next e := by
  obtain ⟨b₁, b₂, w, hw, hm⟩ := @march_spec _ [] _ t (s.gMaxevents + 1)
    (by simpa using h) (by simpa using ht) (by omega)
  have h' : s.queueAt.Holds (b₁ ++ b₂) := by rwa [← hm.split]
  have hl := h'.link (t := t) (by rwa [← hm.split])
  refine ⟨b₁, b₂, w, _, hm, ?_, by rw [← hl.head_eq]; exact hl, fun e het heq => ?_⟩
  · rw [enqueue, show (none : Option ℕ) = placeAfter [] from rfl, hw]
    simp only [Option.bind_eq_bind, Option.bind_some, List.nil_append]
    rw [← hl.head_eq]
    rfl
  · rw [ListAt.store_next_of_notMem fun heb => heq (by simp [hm.split, heb])]
    exact update_of_ne het _ _

/-! ## Setting the interval timer -/

theorem setitimer_frame (s : Timers) (v : Timeval) : ∃ i, s.setitimer v = { s with itimer := i } := by
  rw [Timers.setitimer]
  split
  · exact ⟨v, rfl⟩
  · exact ⟨s.itimer, rfl⟩

theorem reissue_frame (s : Timers) (head : ℕ) :
    ∃ w i, reissue s head = { s with itValue := w, itimer := i } := by
  obtain ⟨i, hi⟩ := setitimer_frame (s.setValue head (timerroundup (s.itValue head) s.gGranularity))
    _
  exact ⟨_, i, hi⟩

/-- Setting the timer changes the head's time and the interval timer, nothing else. -/
theorem reissueAsserted_frame {s' : Timers} {head : ℕ} (h : reissueAsserted s head = some s') :
    ∃ w i, s' = { s with itValue := w, itimer := i } := by
  rw [reissueAsserted] at h
  split at h
  · obtain rfl := Option.some.inj h
    exact reissue_frame s head
  · exact absurd h (by simp)

/-- A head whose time is in range runs on the interval timer, unless the rounding is refused. -/
theorem reissue_eq {head : ℕ} (hv : (s.itValue head).Valid) (hg : 1 ≤ s.gGranularity) :
    reissue s head =
      { s with itValue := update s.itValue head (timerroundup (s.itValue head) s.gGranularity)
               itimer := if (s.itValue head).Roundable s.gGranularity then
                 timerroundup (s.itValue head) s.gGranularity else s.itimer } := by
  simp only [reissue, Timers.setValue, update_self, Timeval.timerisset_timerroundup hv hg, if_true,
    Timers.setitimer, Timeval.valid_timerroundup_iff hv hg]
  split <;> rfl

theorem reissueAsserted_eq {head : ℕ} (hv : (s.itValue head).Valid) (hg : 1 ≤ s.gGranularity) :
    reissueAsserted s head = some
      { s with itValue := update s.itValue head (timerroundup (s.itValue head) s.gGranularity)
               itimer := if (s.itValue head).Roundable s.gGranularity then
                 timerroundup (s.itValue head) s.gGranularity else s.itimer } := by
  rw [← reissue_eq hv hg]
  exact if_pos (Timeval.timerroundup_pos hv hg)

/-! ## Cancelling -/

/-- The walk of `timer_cancel` finds the event wherever it stands. -/
theorem cancelFrom_mem {fuel : ℕ} (h : s.queueAt.Holds (a ++ q ++ t :: b)) (ht : t ∉ q)
    (hf : q.length < fuel) :
    cancelFrom t fuel (placeAfter a) s = cancelAt t (placeAfter (a ++ q)) s := by
  induction q generalizing a fuel with
  | nil =>
    obtain ⟨fuel, rfl⟩ := Nat.exists_eq_add_of_lt hf
    rw [List.append_nil] at h ⊢
    rw [cancelFrom, ListAt.deref_cons h]
    exact if_pos rfl
  | cons e q ih =>
    obtain ⟨fuel, rfl⟩ := Nat.exists_eq_add_of_lt hf
    simp only [List.mem_cons, not_or] at ht
    rw [show (e :: q).length + fuel + 1 = ((e :: q).length + fuel) + 1 from rfl, cancelFrom,
      ListAt.deref_cons (b := q ++ t :: b) (by simpa using h)]
    dsimp only
    rw [if_neg (Ne.symm ht.1)]
    have := @ih (a ++ [e]) ((e :: q).length + fuel) (by simpa using h) ht.2
      (by simp; omega)
    simpa [placeAfter] using this

/-- An event that is not queued is not found. -/
theorem cancelFrom_notMem {fuel : ℕ} (h : s.queueAt.Holds (a ++ q)) (ht : t ∉ q)
    (hf : q.length < fuel) : cancelFrom t fuel (placeAfter a) s = some s := by
  induction q generalizing a fuel with
  | nil =>
    obtain ⟨fuel, rfl⟩ := Nat.exists_eq_add_of_lt hf
    rw [cancelFrom, ListAt.deref_nil (by simpa using h)]
  | cons e q ih =>
    obtain ⟨fuel, rfl⟩ := Nat.exists_eq_add_of_lt hf
    simp only [List.mem_cons, not_or] at ht
    rw [show (e :: q).length + fuel + 1 = ((e :: q).length + fuel) + 1 from rfl, cancelFrom,
      ListAt.deref_cons h]
    dsimp only
    rw [if_neg (Ne.symm ht.1)]
    have := @ih (a ++ [e]) ((e :: q).length + fuel) (by simpa using h) ht.2
      (by simp; omega)
    simpa [placeAfter] using this

/-- The times after the first event of two or more has handed on its remainder. -/
def handed (v : ℕ → Timeval) (r : Timeval) (t : ℕ) : List ℕ → List ℕ → ℕ → Timeval
  | [], u :: _ => update (update v t (timersub (v t) r)) u (timeradd (v u) (timersub (v t) r))
  | _, _ => v

theorem handOn_eq (h : s.queueAt.Holds (a ++ t :: b)) :
    handOn t s = { s with itValue := handed s.itValue s.itimer t a b } := by
  have hn : s.next t = b.head? := (ListAt.Holds.head_eq (s := ⟨s.next, s.next t⟩)
    (ListAt.path_deref h).2)
  have hq : s.eventQueue = (a ++ t :: b).head? := h.head_eq
  rw [handOn, hn]
  cases b with
  | nil => cases a <;> rfl
  | cons u b =>
    have hut : u ≠ t := by
      have := (List.nodup_append.mp (Path.nodup h)).2.1
      exact fun hc => (List.nodup_cons.mp this).1 (by simp [hc])
    cases a with
    | nil =>
      simp only [List.head?_cons, hq, List.nil_append, if_true, Timers.setValue, update_self,
        update_of_ne hut, handed]
    | cons x a =>
      have hxt : x ≠ t := by
        have := (List.nodup_append.mp (Path.nodup h)).2.2
        exact fun hc => this x (by simp) t (by simp) hc
      have hne : s.eventQueue ≠ some t := by simp [hq, hxt]
      exact if_neg hne

/-- `timer_cancel` at an event of the queue: it is unlinked, and the timer set for what is then
the first event, or turned off. -/
theorem cancelAt_spec (h : s.queueAt.Holds (a ++ t :: b)) :
    ∃ n, Path n (a ++ b).head? (a ++ b) none ∧ (∀ e, e ≠ t → e ∉ a → n e = s.next e) ∧
      ∀ s', s' = { s with itValue := handed s.itValue s.itimer t a b
                          next := n
                          eventQueue := (a ++ b).head? } →
        cancelAt t (placeAfter a) s = match (a ++ b).head? with
          | some head => reissueAsserted s' head
          | none => some (s'.setitimer timerclear) := by
  have hu := h.unlink
  refine ⟨_, by rw [← hu.head_eq]; exact hu, fun e het hea => ?_, ?_⟩
  · exact (update_of_ne het _ _).trans (ListAt.store_next_of_notMem hea _)
  · rintro _ rfl
    rw [cancelAt, handOn_eq h, ← hu.head_eq]
    rfl

end EzpFirmware.Timer
