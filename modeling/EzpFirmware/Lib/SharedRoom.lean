import EzpFirmware.Lib.Printing

/-! # Texts that share their room

Several texts are put together in one buffer, each from the start of the buffer on,
but the room that `snprintf` is told counts the texts in front as well. The text
at which the count runs out is cut. Behind it the count is taken for a huge number.
-/
namespace EzpFirmware.Lib

namespace CStr

theorem take_of_le_read {mem : List UInt8} {p : ℕ} (h : p ≤ (read mem).len) :
    mem.take p = ((read mem).take p).val := by
  have hval : (read mem).val = mem.take (read mem).len :=
    List.prefix_iff_eq_take.mp (List.takeWhile_prefix _)
  change mem.take p = (read mem).val.take p
  rw [hval, List.take_take, Nat.min_eq_left h]

theorem zero_mem_take {mem : List UInt8} {p : ℕ} (hp : p ≤ mem.length) (h : (read mem).len < p) :
    (0 : UInt8) ∈ mem.take p := by
  by_contra hfree
  have hall : ∀ b ∈ mem.take p, (b != 0) = true := fun b hb => by
    simpa using fun hz : b = 0 => hfree (hz ▸ hb)
  have hread : (read mem).val = mem.take p ++ (mem.drop p).takeWhile (· != 0) := by
    rw [← List.takeWhile_append_of_pos hall, List.take_append_drop]
    rfl
  have hlen := congrArg List.length hread
  rw [List.length_append, List.length_take_of_le hp] at hlen
  change (read mem).len = _ at hlen
  omega

/-- A text that is written into another one, or behind its end. -/
def overlay (s : CStr) (p : ℕ) (w : CStr) : CStr := if p ≤ s.len then (s.take p).append w else s

theorem read_poke {mem : List UInt8} {p : ℕ} {w : CStr} (h : p + w.len < mem.length) :
    read (poke mem p w.stored) = (read mem).overlay p w := by
  rw [overlay, poke]
  split_ifs with hp
  · rw [take_of_le_read hp]
    have htext : ((read mem).take p).val ++ w.stored = (((read mem).take p).append w).stored := by
      simp [stored, append]
    rw [htext, read_stored_append]
  · have hzero := zero_mem_take (by omega) (not_le.mp hp)
    rw [List.append_assoc, read_append_of_mem hzero]
    conv_rhs => rw [← List.take_append_drop p mem, read_append_of_mem hzero]

theorem over_start (s w : CStr) : s.overlay 0 w = w := by
  rw [overlay, if_pos (Nat.zero_le _)]
  exact Subtype.ext rfl

theorem over_end (s w : CStr) : s.overlay s.len w = s.append w := by
  rw [overlay, if_pos le_rfl]
  congr 1
  exact Subtype.ext (List.take_length)

theorem over_len {s w : CStr} {p : ℕ} (h : p ≤ s.len) : (s.overlay p w).len = p + w.len := by
  rw [overlay, if_pos h, append_len]
  congr 1
  exact List.length_take_of_le h

theorem over_behind {s w : CStr} {p : ℕ} (h : s.len < p) : s.overlay p w = s := if_neg (not_le.mpr h)

theorem mem_over {s w : CStr} {p : ℕ} {b : UInt8} (h : b ∈ (s.overlay p w).val) :
    b ∈ s.val ∨ b ∈ w.val := by
  rw [overlay] at h
  split_ifs at h
  · exact (List.mem_append.mp h).imp List.mem_of_mem_take id
  · exact .inl h

end CStr

/-- A buffer, the place in it where the next piece goes, and the sum of the lengths. -/
structure Cursor where
  buf : List UInt8
  str : ℕ
  used : ℕ

/-- What is written of a piece. -/
def Cursor.out (c : Cursor) (w : CStr) : CStr :=
  if c.buf.length < c.used then w else w.take (c.buf.length - c.used - 1)

/-- `len = snprintf(str, size - used, "%s", w)`, `used += len` and `str += len`, for a buffer of
`size` bytes. If `used` is the size, nothing is written. -/
def Cursor.put (c : Cursor) (w : CStr) : Option Cursor :=
  if c.buf.length = c.used then some ⟨c.buf, c.str + w.len, c.used + w.len⟩
  else if c.str + (c.out w).len < c.buf.length then
    some ⟨poke c.buf c.str (c.out w).stored, c.str + w.len, c.used + w.len⟩
  else none

def Cursor.putAll : List CStr → Cursor → Option Cursor
  | [], c => some c
  | w :: ws, c =>
    match c.put w with
    | none => none
    | some c => putAll ws c

/-- The pointer is set back for the next text, the sum is not. -/
def Cursor.rewind (c : Cursor) : Cursor := { c with str := 0 }

namespace Cursor
variable {c q : Cursor} {w : CStr} {ws : List CStr}

theorem put_size (h : c.put w = some q) :
    q.str = c.str + w.len ∧ q.used = c.used + w.len ∧ q.buf.length = c.buf.length := by
  rw [put] at h
  split_ifs at h with hfull hroom
  · cases h
    exact ⟨rfl, rfl, rfl⟩
  · cases h
    exact ⟨rfl, rfl, poke_length (by rw [CStr.stored_length]; omega)⟩

theorem putAll_cons (h : putAll (w :: ws) c = some q) :
    ∃ r, c.put w = some r ∧ putAll ws r = some q := by
  rw [putAll] at h
  cases hput : c.put w with
  | none =>
    rw [hput] at h
    cases h
  | some r =>
    rw [hput] at h
    exact ⟨r, rfl, h⟩

theorem putAll_size (h : putAll ws c = some q) :
    q.used = c.used + (CStr.concat ws).len ∧ q.buf.length = c.buf.length := by
  induction ws generalizing c with
  | nil =>
    cases h
    exact ⟨rfl, rfl⟩
  | cons w ws ih =>
    obtain ⟨r, hput, hall⟩ := putAll_cons h
    obtain ⟨-, hused, hlen⟩ := put_size hput
    obtain ⟨hused', hlen'⟩ := ih hall
    rw [CStr.concat, CStr.append_len]
    exact ⟨by omega, hlen'.trans hlen⟩

/-- What can be read after a piece. -/
theorem put_read (h : c.put w = some q) : CStr.read q.buf =
    if c.buf.length = c.used then CStr.read c.buf else (CStr.read c.buf).overlay c.str (c.out w) := by
  rw [put] at h
  split_ifs at h ⊢ with hfull hroom
  · cases h
    rfl
  · cases h
    exact CStr.read_poke hroom

theorem out_fits (h : c.used + w.len < c.buf.length) : c.out w = w := by
  rw [out, if_neg (by omega)]
  exact Subtype.ext (List.take_of_length_le (by change w.len ≤ _; omega))

theorem out_cut (h : c.used < c.buf.length) (hcut : c.buf.length ≤ c.used + w.len) :
    (c.out w).len = c.buf.length - c.used - 1 := by
  rw [out, if_neg (by omega)]
  change (w.val.take _).length = _
  rw [List.length_take]
  exact Nat.min_eq_left (by change _ ≤ w.len; omega)

theorem mem_out {b : UInt8} (h : b ∈ (c.out w).val) : b ∈ w.val := by
  rw [out] at h
  split_ifs at h
  · exact h
  · exact List.mem_of_mem_take h

/-! ## A text with room -/

theorem put_fits (hstr : c.str ≤ c.used) (hfit : c.used + w.len < c.buf.length) :
    ∃ q, c.put w = some q ∧ CStr.read q.buf = (CStr.read c.buf).overlay c.str w ∧
      q.str = c.str + w.len ∧ q.used = c.used + w.len ∧ q.buf.length = c.buf.length := by
  have hput : c.put w = some ⟨poke c.buf c.str w.stored, c.str + w.len, c.used + w.len⟩ := by
    rw [put, if_neg (by omega), out_fits hfit, if_pos (by omega)]
  have hread := put_read hput
  rw [if_neg (by omega), out_fits hfit] at hread
  exact ⟨_, hput, hread, put_size hput⟩

theorem putAll_behind {t : CStr} (htext : CStr.read c.buf = t) (hstr : c.str = t.len)
    (hused : c.str ≤ c.used) (hfit : c.used + (CStr.concat ws).len < c.buf.length) :
    ∃ q, putAll ws c = some q ∧ CStr.read q.buf = t.append (CStr.concat ws) := by
  induction ws generalizing c t with
  | nil => exact ⟨c, rfl, htext.trans (CStr.append_empty t).symm⟩
  | cons w ws ih =>
    rw [CStr.concat, CStr.append_len] at hfit
    obtain ⟨r, hput, hread, hstr', hused', hlen⟩ := put_fits (w := w) hused (by omega)
    rw [htext, hstr, CStr.over_end] at hread
    have hend : r.str = (t.append w).len := by
      rw [hstr', hstr, CStr.append_len]
    obtain ⟨q, hall, hq⟩ := ih hread hend (by omega) (by omega)
    refine ⟨q, ?_, ?_⟩
    · rw [putAll, hput]
      exact hall
    · rw [hq, CStr.concat, CStr.append_assoc]

/-- From the start, pieces for which there is room are what can be read then. -/
theorem putAll_fits (hstr : c.str = 0) (hws : ws ≠ [])
    (hfit : c.used + (CStr.concat ws).len < c.buf.length) :
    ∃ q, putAll ws c = some q ∧ CStr.read q.buf = CStr.concat ws := by
  cases ws with
  | nil => exact absurd rfl hws
  | cons w ws =>
    rw [CStr.concat, CStr.append_len] at hfit
    obtain ⟨r, hput, hread, hstr', hused', hlen⟩ := put_fits (c := c) (w := w) (by omega) (by omega)
    rw [hstr, CStr.over_start] at hread
    have hroom : r.used + (CStr.concat ws).len < r.buf.length := by omega
    obtain ⟨q, hall, hq⟩ := putAll_behind hread (by omega) (by omega) hroom
    refine ⟨q, ?_, hq⟩
    rw [putAll, hput]
    exact hall

/-! ## A text that is cut -/

/-- Past the room, nothing of a piece can be read. -/
theorem putAll_past {b : ℕ} (hfull : c.buf.length ≤ c.used) (hread : (CStr.read c.buf).len ≤ b)
    (hstr : b < c.str) (h : putAll ws c = some q) : (CStr.read q.buf).len ≤ b := by
  induction ws generalizing c with
  | nil =>
    cases h
    exact hread
  | cons w ws ih =>
    obtain ⟨r, hput, hall⟩ := putAll_cons h
    obtain ⟨hstr', hused', hlen⟩ := put_size hput
    have hsame : CStr.read r.buf = CStr.read c.buf := by
      rw [put_read hput]
      split_ifs
      · rfl
      · exact CStr.over_behind (by omega)
    exact ih (by omega) (hsame ▸ hread) (by omega) hall

theorem putAll_cut_from {b : ℕ} (hused : c.used < c.buf.length)
    (hread : c.str ≤ (CStr.read c.buf).len) (hb : c.str + c.buf.length = b + 1 + c.used)
    (hcut : c.buf.length ≤ c.used + (CStr.concat ws).len) (h : putAll ws c = some q) :
    (CStr.read q.buf).len ≤ b := by
  induction ws generalizing c with
  | nil =>
    have hnil : (CStr.concat []).len = 0 := rfl
    omega
  | cons w ws ih =>
    obtain ⟨r, hput, hall⟩ := putAll_cons h
    obtain ⟨hstr', hused', hlen⟩ := put_size hput
    have hnow := put_read hput
    rw [if_neg (by omega)] at hnow
    have hnowlen := congrArg CStr.len hnow
    rw [CStr.over_len hread] at hnowlen
    rw [CStr.concat, CStr.append_len] at hcut
    by_cases hfit : c.used + w.len < c.buf.length
    · rw [out_fits hfit] at hnowlen
      exact ih (by omega) (by omega) (by omega) (by omega) hall
    · rw [out_cut hused (not_lt.mp hfit)] at hnowlen
      exact putAll_past (by omega) (by omega) (by omega) hall

/-- If the room runs out in the pieces, they cannot be read as a whole. -/
theorem putAll_cut (hstr : c.str = 0) (hused : c.used < c.buf.length)
    (hcut : c.buf.length ≤ c.used + (CStr.concat ws).len) (h : putAll ws c = some q) :
    (CStr.read q.buf).len < (CStr.concat ws).len := by
  have hle := putAll_cut_from (b := c.buf.length - 1 - c.used) hused (by omega) (by omega) hcut h
  omega

/-! ## What the bytes are -/

section
variable {P : UInt8 → Prop}

theorem putAll_bytes (hread : ∀ b ∈ (CStr.read c.buf).val, P b)
    (hws : ∀ w ∈ ws, ∀ b ∈ w.val, P b) (h : putAll ws c = some q) :
    ∀ b ∈ (CStr.read q.buf).val, P b := by
  induction ws generalizing c with
  | nil =>
    cases h
    exact hread
  | cons w ws ih =>
    obtain ⟨r, hput, hall⟩ := putAll_cons h
    refine ih ?_ (fun w hw => hws w (List.mem_cons_of_mem _ hw)) hall
    intro b hb
    rw [put_read hput] at hb
    split_ifs at hb
    · exact hread b hb
    · rcases CStr.mem_over hb with hb | hb
      · exact hread b hb
      · exact hws w List.mem_cons_self b (mem_out hb)

/-- The first piece replaces what was there. -/
theorem putAll_bytes_start (hstr : c.str = 0) (hused : c.used < c.buf.length) (hne : ws ≠ [])
    (hws : ∀ w ∈ ws, ∀ b ∈ w.val, P b) (h : putAll ws c = some q) :
    ∀ b ∈ (CStr.read q.buf).val, P b := by
  cases ws with
  | nil => exact absurd rfl hne
  | cons w ws =>
    obtain ⟨r, hput, hall⟩ := putAll_cons h
    refine putAll_bytes ?_ (fun w hw => hws w (List.mem_cons_of_mem _ hw)) hall
    intro b hb
    rw [put_read hput, if_neg (by omega), hstr, CStr.over_start] at hb
    exact hws w List.mem_cons_self b (mem_out hb)

end

end Cursor

end EzpFirmware.Lib
