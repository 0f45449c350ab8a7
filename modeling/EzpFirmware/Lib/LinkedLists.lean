import Mathlib.Data.List.Nodup
import Mathlib.Logic.Function.Basic

/-!
# Singly linked lists in a heap of records

A record is known by its address and holds the address of the next one. What a
list is, is the path that the next fields lead along; a path that ends visits no
record twice, so cycles need no extra clause.
-/
namespace EzpFirmware.Lib

variable {ι : Type*}

/-- The next fields lead from `p` through exactly the records of `l` to `q`. -/
def Path (next : ι → Option ι) : Option ι → List ι → Option ι → Prop
  | p, [], q => p = q
  | p, e :: l, q => p = some e ∧ Path next (next e) l q

/-- Where a pointer to a pointer points: the head of the list, or a record's next field. -/
def placeAfter (l : List ι) : Option ι := l.getLast?

/-- The records met in at most `n` steps. -/
def visit (next : ι → Option ι) : ℕ → Option ι → List ι
  | 0, _ => []
  | _ + 1, none => []
  | n + 1, some e => e :: visit next n (next e)

namespace Path

variable {next next' : ι → Option ι} {p q m : Option ι} {l a b : List ι} {e t x : ι}

@[simp] theorem nil_iff : Path next p [] q ↔ p = q := Iff.rfl

@[simp] theorem cons_iff :
    Path next p (e :: l) q ↔ p = some e ∧ Path next (next e) l q := Iff.rfl

theorem append_iff : Path next p (a ++ b) q ↔ ∃ m, Path next p a m ∧ Path next m b q := by
  induction a generalizing p with
  | nil => simp
  | cons e a ih => simp [ih, and_assoc]

/-- Only the next fields of the records on the path matter. -/
theorem congr (h : Path next p l q) (hn : ∀ e ∈ l, next' e = next e) : Path next' p l q := by
  induction l generalizing p with
  | nil => exact h
  | cons e l ih =>
    refine ⟨h.1, ?_⟩
    rw [hn e (by simp)]
    exact ih h.2 fun x hx => hn x (by simp [hx])

/-- A start has one way to the end. -/
theorem unique (ha : Path next p a none) (hb : Path next p b none) : a = b := by
  induction a generalizing p b with
  | nil =>
    cases b with
    | nil => rfl
    | cons e b => exact absurd (ha.symm.trans hb.1) (by simp)
  | cons e a ih =>
    cases b with
    | nil => exact absurd (hb.symm.trans ha.1) (by simp)
    | cons e' b =>
      obtain rfl : e = e' := Option.some.inj (ha.1.symm.trans hb.1)
      rw [ih ha.2 hb.2]

/-- A path that ends visits no record twice. -/
theorem nodup (h : Path next p l none) : l.Nodup := by
  induction l generalizing p with
  | nil => exact List.nodup_nil
  | cons e l ih =>
    refine List.nodup_cons.mpr ⟨fun he => ?_, ih h.2⟩
    obtain ⟨u, v, rfl⟩ := List.append_of_mem he
    -- both occurrences of `e` go on along the same records
    obtain ⟨m, -, hm⟩ := append_iff.mp h.2
    have hlen := congrArg List.length (unique h.2 hm.2)
    simp at hlen
    omega

theorem visit_eq (h : Path next p l none) {n : ℕ} (hn : l.length ≤ n) : visit next n p = l := by
  induction l generalizing p n with
  | nil =>
    obtain rfl : p = none := h
    cases n <;> rfl
  | cons e l ih =>
    obtain ⟨rfl, h⟩ := h
    cases n with
    | zero => simp at hn
    | succ n =>
      rw [visit, ih h (by simpa using hn)]

variable [DecidableEq ι]

theorem update_of_notMem (h : Path next p l q) (hx : x ∉ l) (v : Option ι) :
    Path (Function.update next x v) p l q :=
  h.congr fun _ he => Function.update_of_ne (ne_of_mem_of_not_mem he hx) _ _

/-- Writing the next field of the last record makes the path lead elsewhere. -/
theorem redirect (h : Path next p (a ++ [x]) m) (hx : x ∉ a) (q : Option ι) :
    Path (Function.update next x q) p (a ++ [x]) q := by
  obtain ⟨m', ha, hm'⟩ := append_iff.mp h
  exact append_iff.mpr ⟨m', ha.update_of_notMem hx q, hm'.1, by simp⟩

end Path

/-- A linked list: its records and the value of its head pointer. -/
structure ListAt (ι : Type*) where
  next : ι → Option ι
  head : Option ι

namespace ListAt

variable (s : ListAt ι) {l a b : List ι} {t : ι}

/-- `*pp` for a pointer to the head or to a next field. -/
def deref : Option ι → Option ι
  | none => s.head
  | some e => s.next e

/-- The list ends and visits exactly the records of `l`. -/
def Holds (l : List ι) : Prop := Path s.next s.head l none

variable {s}

theorem Holds.head_eq (h : s.Holds l) : s.head = l.head? := by
  cases l with
  | nil => exact h
  | cons e l => exact h.1

/-- What the pointer after the records of `a` leads to. -/
theorem path_deref (h : s.Holds (a ++ b)) : Path s.next (s.deref (placeAfter a)) b none := by
  obtain ⟨m, ha, hb⟩ := Path.append_iff.mp h
  rcases a.eq_nil_or_concat' with rfl | ⟨a', x, rfl⟩
  · obtain rfl : s.head = m := ha
    simpa [placeAfter, deref] using hb
  · obtain ⟨m', -, hx⟩ := Path.append_iff.mp ha
    obtain rfl : s.next x = m := hx.2
    simpa [placeAfter, deref] using hb

theorem deref_nil (h : s.Holds a) : s.deref (placeAfter a) = none :=
  path_deref (b := []) (by simpa using h)

theorem deref_cons {e : ι} (h : s.Holds (a ++ e :: b)) :
    s.deref (placeAfter a) = some e := (path_deref h).1

variable [DecidableEq ι] (s)

/-- `*pp = v`. -/
def store : Option ι → Option ι → ListAt ι
  | none, v => { s with head := v }
  | some e, v => { s with next := Function.update s.next e v }

variable {s}

theorem store_next_of_notMem {e : ι} (he : e ∉ a) (v : Option ι) :
    (s.store (placeAfter a) v).next e = s.next e := by
  cases hp : placeAfter a with
  | none => rfl
  | some x =>
    have hx : x ∈ a := List.mem_of_getLast? hp
    exact Function.update_of_ne (ne_of_mem_of_not_mem hx he).symm _ _

/-- Writing the pointer after `a` keeps `a` and goes on where the written value leads. -/
theorem Holds.store (h : s.Holds (a ++ b)) (v : Option ι) {l : List ι}
    (hl : Path s.next v l none) (hd : ∀ e ∈ a, e ∉ l) :
    (s.store (placeAfter a) v).Holds (a ++ l) := by
  obtain ⟨m, ha, -⟩ := Path.append_iff.mp h
  have hn : a.Nodup := (Path.nodup h).of_append_left
  rcases a.eq_nil_or_concat' with rfl | ⟨a', x, rfl⟩
  · exact hl
  · have hx : x ∉ a' := by
      rw [List.nodup_append] at hn
      exact fun hx => hn.2.2 x hx x (by simp) rfl
    simp only [placeAfter, List.getLast?_append, List.getLast?_singleton, Option.some_or,
      ListAt.store, Holds]
    exact Path.append_iff.mpr
      ⟨v, ha.redirect hx v, hl.update_of_notMem (hd x (by simp)) v⟩

/-- Linking `t` in: its next field first, then the pointer in front of it. -/
theorem Holds.link (h : s.Holds (a ++ b)) (ht : t ∉ a ++ b) :
    (({ s with next := Function.update s.next t (s.deref (placeAfter a)) } : ListAt ι).store
      (placeAfter a) (some t)).Holds (a ++ t :: b) := by
  have hab := Path.nodup h
  rw [List.nodup_append] at hab
  simp only [List.mem_append, not_or] at ht
  have hs : ({ s with next := Function.update s.next t (s.deref (placeAfter a)) } : ListAt ι).Holds
      (a ++ b) := Path.update_of_notMem h (by simp [ht]) _
  refine hs.store (some t) ⟨rfl, ?_⟩ fun e he => ?_
  · simpa using (path_deref h).update_of_notMem ht.2 _
  · have hne : e ≠ t := fun hx => ht.1 (hx ▸ he)
    exact fun hm => (List.mem_cons.mp hm).elim hne fun hb => hab.2.2 e he e hb rfl

/-- Taking `t` out: the pointer in front of it first, then its next field. -/
theorem Holds.unlink (h : s.Holds (a ++ t :: b)) :
    ({ s.store (placeAfter a) (s.next t) with
        next := Function.update (s.store (placeAfter a) (s.next t)).next t none } :
      ListAt ι).Holds (a ++ b) := by
  have hab := Path.nodup h
  rw [List.nodup_append] at hab
  have ht : t ∉ a ++ b := by
    intro hm
    rcases List.mem_append.mp hm with ha | hb
    · exact hab.2.2 t ha t (by simp) rfl
    · exact (List.nodup_cons.mp hab.2.1).1 hb
  have hb := (path_deref h).2
  have hs := h.store (s.next t) hb fun e he hm => hab.2.2 e he e (by simp [hm]) rfl
  exact Path.update_of_notMem hs ht none

end ListAt

end EzpFirmware.Lib
