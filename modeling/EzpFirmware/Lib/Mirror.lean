import Mathlib.Data.Option.Basic

/-! # Two copies of a value and power cuts

A value is kept in two copies, each of which is either good or rejected. A
commit rewrites the backup copy and then the primary one; a boot prefers a good
backup and repairs a single bad copy from the other. The copies may be out of
step without harm until the backup, the newer one, is broken.
-/
namespace EzpFirmware.Lib

variable {M : Type*}

/-- How far the rewriting of one copy got. -/
inductive Progress where
  | untouched
  | broken
  | rewritten
  deriving DecidableEq

/-- The copy that is left, from the old one and the new value. -/
def Progress.result (old : Option M) (new : M) : Progress → Option M
  | .untouched => old
  | .broken => none
  | .rewritten => some new

structure Mirror (M : Type*) where
  primary : Option M
  backup : Option M

/-- A power cut falls into the rewriting of one of the copies. -/
inductive Cut where
  | backup (p : Progress)
  | primary (p : Progress)
  deriving DecidableEq

namespace Mirror

/-- What a boot loads. -/
def load (m : Mirror M) : Option M := m.backup.or m.primary

/-- The repair of a single bad copy. -/
def repair (m : Mirror M) (p : Progress) : Mirror M :=
  match m.primary, m.backup with
  | some x, none => ⟨some x, p.result none x⟩
  | none, some x => ⟨p.result none x, some x⟩
  | _, _ => m

/-- The copies after a commit of `w` that was cut. -/
def cut (m : Mirror M) (w : M) : Cut → Mirror M
  | .backup p => ⟨m.primary, p.result m.backup w⟩
  | .primary p => ⟨p.result m.primary w, some w⟩

end Mirror

/-- Two copies, the value in use while the power is on, and for reference the last value that was
loaded or wholly committed and the one that was being written when the power failed. -/
structure Node (M : Type*) where
  banks : Mirror M
  live : Option M
  saved : M
  writing : M

inductive Act (M : Type*) where
  | change (m : M)
  | commit (w : M)
  | cut (w : M) (c : Cut)
  | off
  /-- A boot; the power may fail again during the repair. -/
  | boot (c : Option Progress)

namespace Node

def step (n : Node M) : Act M → Node M
  | .change m => { n with live := n.live.map fun _ => m }
  | .commit w =>
    match n.live with
    | none => n
    | some _ => ⟨⟨some w, some w⟩, some w, w, w⟩
  | .cut w c =>
    match n.live with
    | none => n
    | some _ => { n with banks := n.banks.cut w c, live := none, writing := w }
  | .off => { n with live := none, writing := if n.live.isSome then n.saved else n.writing }
  | .boot c =>
    match n.live, n.banks.load with
    | none, some x =>
      ⟨n.banks.repair (c.getD .rewritten), if c.isSome then none else some x, x, x⟩
    | _, _ => n

/-- The backup is broken only while the primary copy has the same value, or the very value that
is being written. -/
def Safe (n : Node M) : Act M → Prop
  | .cut w (.backup .broken) => n.banks.primary = n.banks.backup ∨ n.banks.primary = some w
  | _ => True

/-- While the power is on the backup is the saved value; while it is off the next boot loads the
saved value or the one that was being written. -/
structure Consistent (n : Node M) : Prop where
  on : n.live.isSome → n.banks.backup = some n.saved ∧ n.banks.primary.isSome
  off : n.live = none → n.banks.load = some n.saved ∨ n.banks.load = some n.writing

/-- The copies left by a cut commit. -/
private theorem cut_load {m : Mirror M} {saved w : M} {c : Cut} (hb : m.backup = some saved)
    (hs : c = .backup .broken → m.primary = m.backup ∨ m.primary = some w) :
    (m.cut w c).load = some saved ∨ (m.cut w c).load = some w := by
  cases c with
  | primary p => exact .inr rfl
  | backup p =>
    cases p with
    | untouched =>
      left
      simp [Mirror.cut, Mirror.load, Progress.result, hb]
    | rewritten => exact .inr rfl
    | broken =>
      rw [Mirror.load, Mirror.cut, Progress.result, Option.none_or]
      cases hs rfl with
      | inl h => exact .inl (h.trans hb)
      | inr h => exact .inr h

private theorem repair_load {m : Mirror M} {x : M} (h : m.load = some x) (p : Progress) :
    (m.repair p).load = some x := by
  obtain ⟨primary, backup⟩ := m
  cases backup with
  | some y =>
    cases primary <;> exact h
  | none =>
    cases primary with
    | none => exact h
    | some y =>
      have hy : y = x := by simpa [Mirror.load] using h
      cases p <;> simp [Mirror.repair, Mirror.load, Progress.result, hy]

private theorem repair_whole {m : Mirror M} {x : M} (h : m.load = some x) :
    (m.repair .rewritten).backup = some x ∧ (m.repair .rewritten).primary.isSome := by
  obtain ⟨primary, backup⟩ := m
  cases backup <;> cases primary <;>
    simp_all [Mirror.repair, Mirror.load, Progress.result]

/-- One action. -/
theorem Consistent.step {n : Node M} (h : n.Consistent) {a : Act M} (hs : n.Safe a) :
    (n.step a).Consistent := by
  obtain ⟨banks, live, saved, writing⟩ := n
  cases a with
  | change m =>
    cases live with
    | none => exact h
    | some y => exact ⟨fun _ => h.on rfl, nofun⟩
  | commit w =>
    cases live with
    | none => exact h
    | some y => exact ⟨fun _ => ⟨rfl, rfl⟩, nofun⟩
  | cut w c =>
    cases live with
    | none => exact h
    | some y =>
      refine ⟨nofun, fun _ => cut_load (h.on rfl).1 ?_⟩
      rintro rfl
      exact hs
  | off =>
    cases live with
    | none => exact h
    | some y =>
      refine ⟨nofun, fun _ => .inl ?_⟩
      change banks.backup.or banks.primary = some saved
      rw [(h.on rfl).1, Option.some_or]
  | boot c =>
    cases live with
    | some y => exact h
    | none =>
      cases hl : banks.load with
      | none =>
        rcases h.off rfl with ho | ho <;> exact absurd (hl.symm.trans ho) (by simp)
      | some x =>
        have hstep : Node.step ⟨banks, none, saved, writing⟩ (.boot c) =
            ⟨banks.repair (c.getD .rewritten), if c.isSome then none else some x, x, x⟩ := by
          simp [Node.step, hl]
        rw [hstep]
        cases c with
        | none => exact ⟨fun _ => repair_whole hl, nofun⟩
        | some p => exact ⟨nofun, fun _ => .inl (repair_load hl p)⟩

end Node

end EzpFirmware.Lib
