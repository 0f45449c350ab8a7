import Mathlib.Data.List.Chain

/-! # Sessions that age

What a history of starts, touches and stops makes of the sessions of an id. A
session lives from a granted start on, as long as it is not stopped and no two
consecutive touches lie further apart than the age. Histories have the newest
event in front.
-/
namespace EzpFirmware.Lib.Ageing

inductive Op where
  | start
  | touch
  | stop
  deriving DecidableEq

structure Event (ι κ : Type*) where
  op : Op
  id : ι
  time : ℤ
  /-- What a session that starts here carries. -/
  value : κ
  /-- Whether a start was granted. -/
  granted : Bool

section
variable {ι κ : Type*} [DecidableEq ι]

/-- The times at which an id was started or touched, newest first. -/
def touches (m : ι) (h : List (Event ι κ)) : List ℤ :=
  (h.filter fun x => x.id = m ∧ x.op ≠ .stop).map Event.time

/-- No two consecutive times lie further apart than the age. -/
def Gapless (age : ℤ) (ts : List ℤ) : Prop := ts.IsChain fun b a => b ≤ a + age

/-- A granted start of an id, with the events since then, still counts at a time. -/
structure Continues (age : ℤ) (m : ι) (now : ℤ) (since : List (Event ι κ)) (e : Event ι κ) :
    Prop where
  op : e.op = .start
  id : e.id = m
  granted : e.granted = true
  unstopped : ∀ x ∈ since, x.id = m → x.op ≠ .stop
  gapless : Gapless age (now :: (touches m since ++ [e.time]))

/-- Some start of an id still counts, with a property of it and of what was before. -/
def Since (age : ℤ) (P : Event ι κ → List (Event ι κ) → Prop) (h : List (Event ι κ)) (m : ι)
    (now : ℤ) : Prop :=
  ∃ since e before, h = since ++ e :: before ∧ Continues age m now since e ∧ P e before

/-- The id has a session. -/
def Alive (age : ℤ) (h : List (Event ι κ)) (m : ι) (now : ℤ) : Prop :=
  Since age (fun _ _ => True) h m now

/-- The id has a session that carries `k` since it began. -/
def Carries (age : ℤ) (h : List (Event ι κ)) (m : ι) (now : ℤ) (k : κ) : Prop :=
  Since age (fun e before => ¬ Alive age before m e.time ∧ e.value = k) h m now

variable {age now : ℤ} {m : ι} {x e : Event ι κ} {h since : List (Event ι κ)}
  {P : Event ι κ → List (Event ι κ) → Prop}

theorem continues_nil : Continues age m now [] e ↔
    e.op = .start ∧ e.id = m ∧ e.granted = true ∧ now ≤ e.time + age := by
  constructor
  · intro h
    have hgap : now ≤ e.time + age := by simpa [Gapless, touches] using h.gapless
    exact ⟨h.op, h.id, h.granted, hgap⟩
  · rintro ⟨hop, hid, hgranted, hgap⟩
    exact ⟨hop, hid, hgranted, by simp, by simpa [Gapless, touches] using hgap⟩

/-- An event of another id does not count. -/
theorem continues_other (hx : x.id ≠ m) :
    Continues age m now (x :: since) e ↔ Continues age m now since e := by
  have htouches : touches m (x :: since) = touches m since := by simp [touches, hx]
  constructor
  · intro h
    exact ⟨h.op, h.id, h.granted, fun y hy => h.unstopped y (List.mem_cons_of_mem x hy),
      htouches ▸ h.gapless⟩
  · intro h
    refine ⟨h.op, h.id, h.granted, fun y hy hm => ?_, htouches ▸ h.gapless⟩
    rcases List.mem_cons.mp hy with rfl | hy
    · exact absurd hm hx
    · exact h.unstopped y hy hm

/-- A start or a touch of the id cuts the time in two. -/
theorem continues_touch (hx : x.id = m) (hop : x.op ≠ .stop) :
    Continues age m now (x :: since) e ↔
      now ≤ x.time + age ∧ Continues age m x.time since e := by
  have htouches : touches m (x :: since) = x.time :: touches m since := by
    simp [touches, hx, hop]
  constructor
  · intro h
    have hgap := h.gapless
    rw [htouches, List.cons_append, Gapless, List.isChain_cons_cons] at hgap
    exact ⟨hgap.1, h.op, h.id, h.granted,
      fun y hy => h.unstopped y (List.mem_cons_of_mem x hy), hgap.2⟩
  · rintro ⟨hle, h⟩
    refine ⟨h.op, h.id, h.granted, fun y hy hm => ?_, ?_⟩
    · rcases List.mem_cons.mp hy with rfl | hy
      · exact hop
      · exact h.unstopped y hy hm
    · rw [htouches, List.cons_append, Gapless, List.isChain_cons_cons]
      exact ⟨hle, h.gapless⟩

theorem not_continues_stop (hx : x.id = m) (hop : x.op = .stop) :
    ¬ Continues age m now (x :: since) e :=
  fun h => h.unstopped x List.mem_cons_self hx hop

theorem not_since_nil : ¬ Since age P [] m now := by
  rintro ⟨since, e, before, h, -⟩
  simp at h

/-- The newest event is the start itself, or lies behind it. -/
theorem since_cons : Since age P (x :: h) m now ↔
    Continues age m now [] x ∧ P x h ∨
      ∃ since e before, h = since ++ e :: before ∧ Continues age m now (x :: since) e ∧
        P e before := by
  constructor
  · rintro ⟨since, e, before, hh, hc, hP⟩
    cases since with
    | nil =>
      obtain ⟨rfl, rfl⟩ := List.cons.inj hh
      exact .inl ⟨hc, hP⟩
    | cons y since =>
      obtain ⟨rfl, hrest⟩ := List.cons.inj hh
      exact .inr ⟨since, e, before, hrest, hc, hP⟩
  · rintro (⟨hc, hP⟩ | ⟨since, e, before, hh, hc, hP⟩)
    · exact ⟨[], x, h, rfl, hc, hP⟩
    · exact ⟨x :: since, e, before, by rw [hh, List.cons_append], hc, hP⟩

theorem since_other (hx : x.id ≠ m) : Since age P (x :: h) m now ↔ Since age P h m now := by
  rw [since_cons, continues_nil]
  simp only [continues_other hx, hx, false_and, and_false, false_or]
  rfl

theorem not_since_stop (hx : x.id = m) (hop : x.op = .stop) : ¬ Since age P (x :: h) m now := by
  rw [since_cons, continues_nil]
  rintro (⟨⟨hstart, -⟩, -⟩ | ⟨since, e, before, -, hc, -⟩)
  · rw [hop] at hstart
    cases hstart
  · exact not_continues_stop hx hop hc

theorem since_touch (hx : x.id = m) (hop : x.op = .touch) :
    Since age P (x :: h) m now ↔ Since age P h m x.time ∧ now ≤ x.time + age := by
  have hstop : x.op ≠ .stop := by simp [hop]
  rw [since_cons, continues_nil]
  simp only [continues_touch hx hstop, hop, reduceCtorEq, false_and, false_or]
  constructor
  · rintro ⟨since, e, before, hh, ⟨hle, hc⟩, hP⟩
    exact ⟨⟨since, e, before, hh, hc, hP⟩, hle⟩
  · rintro ⟨⟨since, e, before, hh, hc, hP⟩, hle⟩
    exact ⟨since, e, before, hh, ⟨hle, hc⟩, hP⟩

theorem since_start (hx : x.id = m) (hop : x.op = .start) :
    Since age P (x :: h) m now ↔
      (x.granted = true ∧ P x h ∨ Since age P h m x.time) ∧ now ≤ x.time + age := by
  have hstop : x.op ≠ .stop := by simp [hop]
  rw [since_cons, continues_nil]
  simp only [continues_touch hx hstop, hop, hx, true_and]
  constructor
  · rintro (⟨⟨hg, hle⟩, hP⟩ | ⟨since, e, before, hh, ⟨hle, hc⟩, hP⟩)
    · exact ⟨.inl ⟨hg, hP⟩, hle⟩
    · exact ⟨.inr ⟨since, e, before, hh, hc, hP⟩, hle⟩
  · rintro ⟨⟨hg, hP⟩ | ⟨since, e, before, hh, hc, hP⟩, hle⟩
    · exact .inl ⟨⟨hg, hle⟩, hP⟩
    · exact .inr ⟨since, e, before, hh, ⟨hle, hc⟩, hP⟩

/-- A session that carries a value lives. -/
theorem Carries.alive {k : κ} (hc : Carries age h m now k) : Alive age h m now := by
  obtain ⟨since, e, before, hh, hc, -⟩ := hc
  exact ⟨since, e, before, hh, hc, trivial⟩

/-- A session that lives carries what it began with. -/
theorem Alive.carries (ha : Alive age h m now) : ∃ k, Carries age h m now k := by
  induction h generalizing now with
  | nil => exact absurd ha not_since_nil
  | cons x h ih =>
    by_cases hx : x.id = m
    · cases hop : x.op with
      | stop => exact absurd ha (not_since_stop hx hop)
      | touch =>
        obtain ⟨ha, hle⟩ := (since_touch hx hop).mp ha
        obtain ⟨k, hk⟩ := ih ha
        exact ⟨k, (since_touch hx hop).mpr ⟨hk, hle⟩⟩
      | start =>
        obtain ⟨hstart, hle⟩ := (since_start hx hop).mp ha
        by_cases hbefore : Alive age h m x.time
        · obtain ⟨k, hk⟩ := ih hbefore
          exact ⟨k, (since_start hx hop).mpr ⟨.inr hk, hle⟩⟩
        · have hg : x.granted = true := (hstart.resolve_right hbefore).1
          exact ⟨x.value, (since_start hx hop).mpr ⟨.inl ⟨hg, hbefore, rfl⟩, hle⟩⟩
    · obtain ⟨k, hk⟩ := ih ((since_other hx).mp ha)
      exact ⟨k, (since_other hx).mpr hk⟩

end

end EzpFirmware.Lib.Ageing
