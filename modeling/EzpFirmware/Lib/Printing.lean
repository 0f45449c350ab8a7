import EzpFirmware.Lib.Layout
import EzpFirmware.Lib.Memory

/-! # Printing at a running position

A text is put together in a buffer piece by piece, each with `snprintf` behind
the last one. The position goes on by the length a piece would have, also when
it is cut; as soon as it is behind the buffer nothing holds the next write.
-/
namespace EzpFirmware.Lib

namespace CStr

/-- The strings one behind the other. -/
def concat : List CStr → CStr
  | [] => empty
  | w :: ws => w.append (concat ws)

theorem append_empty (t : CStr) : t.append empty = t := Subtype.ext (List.append_nil _)

theorem empty_append (t : CStr) : empty.append t = t := rfl

theorem append_assoc (a b t : CStr) : (a.append b).append t = a.append (b.append t) :=
  Subtype.ext (List.append_assoc _ _ _)

theorem concat_append (ws vs : List CStr) : concat (ws ++ vs) = (concat ws).append (concat vs) := by
  induction ws with
  | nil => rfl
  | cons w ws ih => rw [List.cons_append, concat, ih, concat, append_assoc]

theorem notMem_concat {c : UInt8} {ws : List CStr} (h : ∀ w ∈ ws, c ∉ w.val) :
    c ∉ (concat ws).val := by
  induction ws with
  | nil => exact List.not_mem_nil
  | cons w ws ih =>
    rw [concat]
    intro hc
    rcases List.mem_append.mp hc with hc | hc
    · exact h w List.mem_cons_self hc
    · exact ih (fun v hv => h v (List.mem_cons_of_mem w hv)) hc

theorem concat_singleton (w : CStr) : concat [w] = w := append_empty w

/-- Fields with a separator behind each are lines. -/
theorem concat_glue {c : UInt8} (hc : c ≠ 0) (fs : List CStr) :
    concat (fs.map fun f => glue c hc f empty) = lines c hc fs := by
  induction fs with
  | nil => rfl
  | cons f fs ih =>
    rw [List.map_cons, concat, ih]
    exact Subtype.ext (by simp [append, glue, empty, lines, heads])

end CStr

/-- A buffer, and the position behind what was printed to it. -/
structure Print where
  buf : List UInt8
  pos : ℕ

/-- `len = snprintf(buf + pos, size - pos, "%s", w)` and `pos += len`, in a buffer of `size` bytes.
Behind the buffer the room that is left is taken for a huge number. -/
def Print.put (p : Print) (w : CStr) : Option Print :=
  if p.buf.length < p.pos then none
  else if p.buf.length = p.pos then some ⟨p.buf, p.pos + w.len⟩
  else some ⟨poke p.buf p.pos (w.take (p.buf.length - p.pos - 1)).stored, p.pos + w.len⟩

def Print.putAll : List CStr → Print → Option Print
  | [], p => some p
  | w :: ws, p =>
    match p.put w with
    | none => none
    | some p => putAll ws p

/-- The text is at the start of the buffer, and the position is at its end. -/
structure Print.Shows (p : Print) (t : CStr) : Prop where
  pos : p.pos = t.len
  text : t.stored <+: p.buf

namespace Print
variable {p q : Print} {t w : CStr} {ws : List CStr}

theorem Shows.len_lt (h : p.Shows t) : t.len < p.buf.length := by
  have hlen := h.text.length_le
  rw [CStr.stored_length] at hlen
  omega

theorem Shows.read (h : p.Shows t) : CStr.read p.buf = t := by
  obtain ⟨rest, hrest⟩ := h.text
  rw [← hrest, CStr.read_stored_append]

theorem Shows.take (h : p.Shows t) : p.buf.take t.len = t.val := by
  obtain ⟨rest, hrest⟩ := h.text
  rw [← hrest, CStr.stored, List.append_assoc]
  exact List.take_left' rfl

/-- Printing at the end of the text leaves it in front. -/
theorem Shows.put (h : p.Shows t) (w : CStr) :
    p.put w = some ⟨t.val ++ ((w.take (p.buf.length - t.len - 1)).stored ++
      p.buf.drop (t.len + (w.take (p.buf.length - t.len - 1)).stored.length)), t.len + w.len⟩ := by
  have hlt := h.len_lt
  rw [Print.put, h.pos, if_neg (by omega), if_neg (by omega), poke, h.take, List.append_assoc]

/-- A piece that fits is behind the text then. -/
theorem Shows.put_fits (h : p.Shows t) (hfit : t.len + w.len < p.buf.length) :
    ∃ q, p.put w = some q ∧ q.Shows (t.append w) ∧ q.buf.length = p.buf.length := by
  have htake : w.take (p.buf.length - t.len - 1) = w :=
    Subtype.ext (List.take_of_length_le (by change w.len ≤ _; omega))
  have hput := h.put w
  rw [htake] at hput
  refine ⟨_, hput, ⟨(CStr.append_len t w).symm, ?_⟩, ?_⟩
  · refine ⟨p.buf.drop (t.len + w.stored.length), ?_⟩
    simp [CStr.stored, CStr.append]
  · have hlen : t.val.length = t.len := rfl
    simp only [List.length_append, List.length_drop, CStr.stored_length, hlen]
    omega

/-- A piece that does not fit is cut, and the buffer is full. -/
theorem Shows.put_cut (h : p.Shows t) (hcut : p.buf.length ≤ t.len + w.len) :
    p.put w = some ⟨((t.append w).take (p.buf.length - 1)).stored, t.len + w.len⟩ := by
  have hlt := h.len_lt
  have hlen : (w.take (p.buf.length - t.len - 1)).len = p.buf.length - t.len - 1 := by
    change (w.val.take _).length = _
    rw [List.length_take]
    change min _ w.len = _
    omega
  have hdrop : p.buf.drop (t.len + (w.take (p.buf.length - t.len - 1)).stored.length) = [] := by
    apply List.drop_eq_nil_of_le
    rw [CStr.stored_length, hlen]
    omega
  have htext : (t.append w).take (p.buf.length - 1) =
      t.append (w.take (p.buf.length - t.len - 1)) := by
    apply Subtype.ext
    have hval : t.val.length = t.len := rfl
    change (t.val ++ w.val).take _ = t.val ++ w.val.take _
    rw [List.take_append, List.take_of_length_le (by omega), hval, Nat.sub_right_comm]
  rw [h.put w, hdrop, htext, List.append_nil]
  simp [CStr.stored, CStr.append]

theorem put_size (h : p.put w = some q) :
    q.pos = p.pos + w.len ∧ q.buf.length = p.buf.length := by
  unfold Print.put at h
  split_ifs at h with hover hfull
  · cases h
    exact ⟨rfl, rfl⟩
  · cases h
    refine ⟨rfl, ?_⟩
    have hle : (w.take (p.buf.length - p.pos - 1)).len ≤ p.buf.length - p.pos - 1 :=
      List.length_take_le _ _
    rw [poke_length]
    rw [CStr.stored_length]
    omega

/-- The position counts what was to be printed. -/
theorem putAll_size (h : putAll ws p = some q) :
    q.pos = p.pos + (CStr.concat ws).len ∧ q.buf.length = p.buf.length := by
  induction ws generalizing p with
  | nil =>
    cases h
    exact ⟨rfl, rfl⟩
  | cons w ws ih =>
    rw [putAll] at h
    cases hput : p.put w with
    | none =>
      rw [hput] at h
      cases h
    | some r =>
      rw [hput] at h
      obtain ⟨hpos, hlen⟩ := put_size hput
      obtain ⟨hpos', hlen'⟩ := ih h
      rw [CStr.concat, CStr.append_len]
      exact ⟨by omega, hlen'.trans hlen⟩

theorem putAll_append (ws vs : List CStr) (p : Print) :
    putAll (ws ++ vs) p = (putAll ws p).bind (putAll vs) := by
  induction ws generalizing p with
  | nil => rfl
  | cons w ws ih =>
    rw [List.cons_append, putAll, putAll]
    cases p.put w with
    | none => rfl
    | some q => exact ih q

/-- Pieces that fit together are all behind the text then. -/
theorem Shows.putAll (h : p.Shows t) (hfit : t.len + (CStr.concat ws).len < p.buf.length) :
    ∃ q, putAll ws p = some q ∧ q.Shows (t.append (CStr.concat ws)) ∧
      q.buf.length = p.buf.length := by
  induction ws generalizing p t with
  | nil => exact ⟨p, rfl, (CStr.append_empty t).symm ▸ h, rfl⟩
  | cons w ws ih =>
    rw [CStr.concat, CStr.append_len] at hfit
    obtain ⟨r, hput, hshows, hlen⟩ := h.put_fits (w := w) (by omega)
    obtain ⟨q, hall, hq, hqlen⟩ := ih hshows (by rw [CStr.append_len, hlen]; omega)
    refine ⟨q, ?_, ?_, hqlen.trans hlen⟩
    · rw [Print.putAll, hput]
      exact hall
    · rwa [CStr.concat, ← CStr.append_assoc]

/-! ### When nothing is written behind the buffer -/

theorem put_isSome_iff : (p.put w).isSome = true ↔ p.pos ≤ p.buf.length := by
  unfold Print.put
  split_ifs with hover hfull
  · simpa using hover
  · simpa using hfull.ge
  · simpa using hover

/-- Pieces stay in the buffer if and only if those in front of the last one end in it. -/
theorem putAll_isSome_iff : (putAll ws p).isSome = true ↔
    ws = [] ∨ p.pos + (CStr.concat ws.dropLast).len ≤ p.buf.length := by
  induction ws generalizing p with
  | nil => simp [putAll]
  | cons w ws ih =>
    rw [putAll]
    cases hput : p.put w with
    | none =>
      have hover : ¬ p.pos ≤ p.buf.length := by
        rw [← put_isSome_iff (w := w), hput]
        exact Bool.false_ne_true
      simp only [Option.isSome_none, Bool.false_eq_true, reduceCtorEq, false_or, false_iff]
      omega
    | some q =>
      have hroom : p.pos ≤ p.buf.length := by
        rw [← put_isSome_iff (w := w), hput]
        rfl
      obtain ⟨hpos, hlen⟩ := put_size hput
      dsimp only
      rw [ih, hpos, hlen]
      by_cases hws : ws = []
      · simpa [hws, CStr.concat] using hroom
      · rw [List.dropLast_cons_of_ne_nil hws, CStr.concat, CStr.append_len]
        simp [hws, Nat.add_assoc]

/-- The buffer shows as much of a text as it holds, and the position is behind the text. -/
structure Cut (p : Print) (t : CStr) : Prop where
  pos : p.pos = t.len
  size : 0 < p.buf.length
  text : (t.take (p.buf.length - 1)).stored <+: p.buf

theorem Cut.read (h : p.Cut t) : CStr.read p.buf = t.take (p.buf.length - 1) := by
  obtain ⟨rest, hrest⟩ := h.text
  rw [← hrest, CStr.read_stored_append, hrest]

theorem Cut.shows (h : p.Cut t) (hlen : t.len < p.buf.length) : p.Shows t := by
  have htake : t.take (p.buf.length - 1) = t :=
    Subtype.ext (List.take_of_length_le (Nat.le_sub_one_of_lt hlen))
  exact ⟨h.pos, htake ▸ h.text⟩

theorem Shows.cut (h : p.Shows t) : p.Cut t := by
  have htake : t.take (p.buf.length - 1) = t :=
    Subtype.ext (List.take_of_length_le (Nat.le_sub_one_of_lt h.len_lt))
  exact ⟨h.pos, Nat.zero_lt_of_lt h.len_lt, htake.symm ▸ h.text⟩

/-- The first text goes to the start of the buffer, whatever is there. -/
theorem put_start (hpos : p.pos = 0) (hsize : 0 < p.buf.length) (hput : p.put w = some q) :
    q.Cut w := by
  obtain ⟨hq, hlen⟩ := put_size hput
  rw [hpos, Nat.zero_add] at hq
  refine ⟨hq, by rwa [hlen], ?_⟩
  rw [Print.put, hpos, if_neg (by omega), if_neg (by omega)] at hput
  cases hput
  rw [hlen, Nat.sub_zero, poke, List.take_zero, List.nil_append]
  exact List.prefix_append _ _

/-- What is printed goes on from the text, and its end may be missing. -/
theorem Cut.put (h : p.Cut t) (hput : p.put w = some q) : q.Cut (t.append w) := by
  obtain ⟨hpos, hlen⟩ := put_size hput
  have hqpos : q.pos = (t.append w).len := by rw [hpos, h.pos, CStr.append_len]
  by_cases hroom : t.len < p.buf.length
  · by_cases hfit : t.len + w.len < p.buf.length
    · obtain ⟨r, hr, hshows, -⟩ := (h.shows hroom).put_fits hfit
      cases hput.symm.trans hr
      exact hshows.cut
    · have hcut := (h.shows hroom).put_cut (not_lt.mp hfit)
      cases hput.symm.trans hcut
      refine ⟨hqpos, by rw [hlen]; exact h.size, ?_⟩
      rw [hlen]
  · unfold Print.put at hput
    split_ifs at hput with hover hfull
    · cases hput
      refine ⟨hqpos, h.size, ?_⟩
      have htake : (t.append w).take (p.buf.length - 1) = t.take (p.buf.length - 1) := by
        apply Subtype.ext
        change (t.val ++ w.val).take _ = t.val.take _
        rw [List.take_append_of_le_length]
        change _ ≤ t.len
        omega
      dsimp only
      rw [htake]
      exact h.text
    · exact absurd (h.pos ▸ not_lt.mp hroom) (by omega)

theorem Cut.putAll (h : p.Cut t) (hall : putAll ws p = some q) :
    q.Cut (t.append (CStr.concat ws)) := by
  induction ws generalizing p t with
  | nil =>
    cases hall
    rwa [CStr.concat, CStr.append_empty]
  | cons w ws ih =>
    rw [Print.putAll] at hall
    cases hput : p.put w with
    | none =>
      rw [hput] at hall
      cases hall
    | some r =>
      rw [hput] at hall
      rw [CStr.concat, ← CStr.append_assoc]
      exact ih (h.put hput) hall

/-! ### What stays in the buffer -/

/-- A text stands in front of the position, and the buffer has only such bytes. -/
structure Filled (ok : UInt8 → Prop) (t : CStr) (p : Print) : Prop where
  pos : t.len ≤ p.pos
  text : t.val <+: p.buf
  bytes : ∀ b ∈ p.buf, ok b

variable {ok : UInt8 → Prop}

/-- A print does not change what is in front of it, whether or not it is cut. -/
theorem Filled.put (h : Filled ok t p) (hzero : ok 0) (hw : ∀ b ∈ w.val, ok b)
    (hput : p.put w = some q) : Filled ok t q := by
  have hsize := put_size hput
  have hpos := h.pos
  rw [Print.put] at hput
  split_ifs at hput with hover hfull
  · cases hput
    exact ⟨by dsimp only; omega, h.text, h.bytes⟩
  · cases hput
    refine ⟨by dsimp only; omega, ?_, ?_⟩
    · have htext : Holds p.buf 0 t.val := h.text
      exact htext.poke (by rw [Nat.zero_add]; exact h.pos) (by omega)
    · intro b hb
      rcases List.mem_append.mp hb with hb | hb
      · rcases List.mem_append.mp hb with hb | hb
        · exact h.bytes b (List.mem_of_mem_take hb)
        · rcases List.mem_append.mp hb with hb | hb
          · exact hw b (List.mem_of_mem_take hb)
          · rw [List.mem_singleton.mp hb]
            exact hzero
      · exact h.bytes b (List.mem_of_mem_drop hb)

theorem Filled.putAll (h : Filled ok t p) (hzero : ok 0) (hws : ∀ w ∈ ws, ∀ b ∈ w.val, ok b)
    (hall : putAll ws p = some q) : Filled ok t q := by
  induction ws generalizing p with
  | nil =>
    cases hall
    exact h
  | cons w ws ih =>
    rw [Print.putAll] at hall
    cases hput : p.put w with
    | none =>
      rw [hput] at hall
      cases hall
    | some r =>
      rw [hput] at hall
      have hr := h.put hzero (hws w List.mem_cons_self) hput
      exact ih hr (fun v hv => hws v (List.mem_cons_of_mem w hv)) hall

theorem put_leading {xs : List UInt8} (h : xs <+: p.buf) (hpos : xs.length ≤ p.pos)
    (hput : p.put w = some q) : xs <+: q.buf := by
  unfold Print.put at hput
  split_ifs at hput with hover hfull
  · cases hput
    exact h
  · cases hput
    have htext : Holds p.buf 0 xs := h
    exact htext.poke (by rwa [Nat.zero_add]) (by omega)

/-- Printing does not change what is in front of the position. -/
theorem putAll_leading {xs : List UInt8} (h : xs <+: p.buf) (hpos : xs.length ≤ p.pos)
    (hall : putAll ws p = some q) : xs <+: q.buf := by
  induction ws generalizing p with
  | nil =>
    cases hall
    exact h
  | cons w ws ih =>
    rw [putAll] at hall
    cases hput : p.put w with
    | none =>
      rw [hput] at hall
      cases hall
    | some r =>
      rw [hput] at hall
      have hr := (put_size hput).1
      exact ih (put_leading h hpos hput) (by omega) hall

/-- The text that the buffer holds begins like this. -/
theorem Filled.read (h : Filled ok t p) :
    t.val <+: (CStr.read p.buf).val ∧ ∀ b ∈ (CStr.read p.buf).val, ok b := by
  constructor
  · obtain ⟨rest, hrest⟩ := h.text
    have hne : ∀ b ∈ t.val, (b != 0) = true := by
      intro b hb
      rw [bne_iff_ne]
      rintro rfl
      exact t.property hb
    rw [← hrest]
    change t.val <+: (t.val ++ rest).takeWhile (· != 0)
    rw [List.takeWhile_append_of_pos hne]
    exact List.prefix_append _ _
  · exact fun b hb => h.bytes b (List.takeWhile_subset _ hb)

/-- A text that is shown is at the start of the buffer. -/
theorem Shows.filled (h : p.Shows t) (hbytes : ∀ b ∈ p.buf, ok b) : Filled ok t p where
  pos := h.pos.ge
  text := (List.prefix_append _ _).trans h.text
  bytes := hbytes

end Print

/-- A buffer of zeros is the empty text. -/
theorem Print.shows_zeros {n : ℕ} (hn : 0 < n) :
    (⟨List.replicate n 0, 0⟩ : Print).Shows CStr.empty := by
  obtain ⟨n, rfl⟩ := Nat.exists_eq_succ_of_ne_zero hn.ne'
  exact ⟨rfl, ⟨List.replicate n 0, rfl⟩⟩

end EzpFirmware.Lib
