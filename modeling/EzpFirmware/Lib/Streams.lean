import Mathlib.Data.List.Basic
import Mathlib.Tactic.Common

/-! # Streams that are read in pieces

A read hands out what the system has at hand: at most what is asked for, and
nothing only at the end of the stream. What the single reads give is left open;
a reader whose result does not depend on it is one that carries its state from
one piece to the next.
-/
namespace EzpFirmware.Lib

section
variable {α σ : Type*}

/-- The number of bytes that a read of at most `count` gives when the system would
hand out `want` of the `avail` bytes that are left. -/
def readLen (count want avail : ℕ) : ℕ := min (max want 1) (min count avail)

theorem readLen_le_avail (count want avail : ℕ) : readLen count want avail ≤ avail := by
  rw [readLen]
  omega

theorem readLen_le_count (count want avail : ℕ) : readLen count want avail ≤ count := by
  rw [readLen]
  omega

@[simp] theorem readLen_eq_zero {count want avail : ℕ} :
    readLen count want avail = 0 ↔ count = 0 ∨ avail = 0 := by
  rw [readLen]
  omega

/-- Read pieces of at most `count` until a read gives nothing, with a step for each piece. -/
def drain (count : ℕ) (step : σ → List α → σ) (wants : ℕ → ℕ) (s : σ) (rest : List α) : σ :=
  let n := readLen count (wants 0) rest.length
  if 0 < n then drain count step (fun k => wants (k + 1)) (step s (rest.take n)) (rest.drop n)
  else s
termination_by rest.length
decreasing_by
  have hle := readLen_le_avail count (wants 0) rest.length
  rw [List.length_drop]
  omega

/-- What a reader computes over pieces it computes over the whole, if a step over two pieces
is one step over both. -/
theorem drain_eq {count : ℕ} (hcount : 0 < count) {step : σ → List α → σ}
    (hnil : ∀ s, step s [] = s) (happend : ∀ s a b, step s (a ++ b) = step (step s a) b)
    (wants : ℕ → ℕ) (s : σ) (rest : List α) : drain count step wants s rest = step s rest := by
  induction wants, s, rest using drain.induct count step with
  | case1 wants s rest n hn ih =>
    rw [drain, if_pos hn, ih, ← happend, List.take_append_drop]
  | case2 wants s rest n hn =>
    have hzero : readLen count (wants 0) rest.length = 0 := by omega
    have hrest : rest = [] := by
      rcases readLen_eq_zero.mp hzero with hc | hl
      · omega
      · exact List.eq_nil_of_length_eq_zero hl
    rw [drain, if_neg hn, hrest, hnil]

/-- Read until `count` elements are there or a read gives nothing. -/
def gather (count : ℕ) (wants : ℕ → ℕ) (rest : List α) : List α :=
  let n := readLen count (wants 0) rest.length
  if 0 < n then rest.take n ++ gather (count - n) (fun k => wants (k + 1)) (rest.drop n) else []
termination_by count
decreasing_by
  have hle := readLen_le_count count (wants 0) rest.length
  omega

/-- What is gathered does not depend on how the reads cut the stream. -/
theorem gather_eq (count : ℕ) (wants : ℕ → ℕ) (rest : List α) :
    gather count wants rest = rest.take count := by
  induction count, wants, rest using gather.induct with
  | case1 count wants rest n hn ih =>
    have hle := readLen_le_count count (wants 0) rest.length
    have hsplit : count = n + (count - n) := by omega
    rw [gather, if_pos hn, ih]
    conv_rhs => rw [hsplit, List.take_add]
  | case2 count wants rest n hn =>
    have hzero : readLen count (wants 0) rest.length = 0 := by omega
    rw [gather, if_neg hn]
    rcases readLen_eq_zero.mp hzero with hc | hl
    · rw [hc, List.take_zero]
    · rw [List.eq_nil_of_length_eq_zero hl, List.take_nil]

end

/-! ## Streams of chunks that carry their length

A reader takes the length of the next chunk from its head and goes on behind
it. A stream is tiled if the reader arrives exactly at its end.
-/

variable {α : Type*} (least : ℕ) (len : List α → ℕ)

/-- The chunks of a stream, for a number of steps. No chunk is shorter than `least`. -/
def chunksFrom : ℕ → List α → Option (List (List α))
  | _, [] => some []
  | 0, _ :: _ => none
  | fuel + 1, x :: xs =>
    let s := x :: xs
    if least ≤ len s ∧ len s ≤ s.length then
      (chunksFrom fuel (s.drop (len s))).map (s.take (len s) :: ·)
    else none

/-- The chunks of a stream, if they tile it. -/
def chunks (s : List α) : Option (List (List α)) := chunksFrom least len s.length s

variable {least : ℕ} {len : List α → ℕ}

/-- Steps beyond the number of bytes change nothing. -/
theorem chunksFrom_congr (hleast : 0 < least) {m n : ℕ} {s : List α} (hm : s.length ≤ m)
    (hn : s.length ≤ n) : chunksFrom least len m s = chunksFrom least len n s := by
  induction m generalizing n s with
  | zero =>
    have hs : s = [] := List.eq_nil_of_length_eq_zero (Nat.le_zero.mp hm)
    simp [hs, chunksFrom]
  | succ m ih =>
    cases s with
    | nil => simp [chunksFrom]
    | cons x xs =>
      rw [List.length_cons] at hm hn
      obtain ⟨k, rfl⟩ : ∃ k, n = k + 1 := Nat.exists_eq_succ_of_ne_zero (by omega)
      simp only [chunksFrom]
      split_ifs with hfits
      · have hdrop : ((x :: xs).drop (len (x :: xs))).length ≤ xs.length := by
          rw [List.length_drop, List.length_cons]
          omega
        rw [ih (n := k) (by omega) (by omega)]
      · rfl

@[simp] theorem chunks_nil : chunks least len [] = some [] := rfl

/-- A chunk at the head is read first. -/
theorem chunks_append (hleast : 0 < least) {p r : List α} (hlen : len (p ++ r) = p.length)
    (hp : least ≤ p.length) : chunks least len (p ++ r) = (chunks least len r).map (p :: ·) := by
  cases p with
  | nil =>
    rw [List.length_nil] at hp
    omega
  | cons x xs =>
    rw [List.cons_append] at hlen ⊢
    rw [chunks, List.length_cons]
    simp only [chunksFrom, hlen]
    have hlong : r.length ≤ (xs ++ r).length := by simp
    rw [if_pos ⟨hp, by simp⟩, ← List.cons_append, List.drop_left, List.take_left, chunks,
      chunksFrom_congr hleast hlong (Nat.le_refl _)]

/-- A rest that is too short for a chunk is not tiled. -/
theorem chunks_short {s : List α} (hs : s ≠ []) (hshort : s.length < least) :
    chunks least len s = none := by
  cases s with
  | nil => exact absurd rfl hs
  | cons x xs =>
    rw [chunks, List.length_cons]
    simp only [chunksFrom]
    rw [if_neg]
    omega

/-- Chunks that carry their lengths are read one by one. -/
theorem chunks_flatten (hleast : 0 < least) {ps : List (List α)}
    (hps : ∀ p ∈ ps, least ≤ p.length ∧ ∀ r, len (p ++ r) = p.length) :
    chunks least len ps.flatten = some ps := by
  induction ps with
  | nil => rfl
  | cons p ps ih =>
    have hp := hps p List.mem_cons_self
    rw [List.flatten_cons, chunks_append hleast (hp.2 _) hp.1,
      ih fun q hq => hps q (List.mem_cons_of_mem p hq)]
    rfl

end EzpFirmware.Lib
