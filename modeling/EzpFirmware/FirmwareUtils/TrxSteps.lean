import EzpFirmware.FirmwareUtils.Trx

/-! # What an option does to the block

An option is rejected, asks for another block, or puts down what it adds behind the
end of what is there, in one write that stays inside the block or does not. A `-f`
file writes its offset into the header before that.
-/
namespace EzpFirmware.FirmwareUtils
open Lib

variable {heap : ℕ → ℕ → UInt8} {s : Packing} {o : Opt}

/-! ## Writes -/

/-- A write that stays in a block of `size` bytes. -/
def Inside (size pos : ℕ) (bytes : List UInt8) : Prop := bytes = [] ∨ pos + bytes.length ≤ size

instance (size pos : ℕ) (bytes : List UInt8) : Decidable (Inside size pos bytes) :=
  inferInstanceAs (Decidable (_ ∨ _))

theorem put_eq (buf : List UInt8) (pos : ℕ) (bytes : List UInt8) :
    put buf pos bytes =
      if Inside buf.length pos bytes then .ok (poke buf pos bytes) else .error .outside := rfl

theorem Inside.poke_length {buf bytes : List UInt8} {pos : ℕ} (h : Inside buf.length pos bytes) :
    (poke buf pos bytes).length = buf.length := by
  rcases h with rfl | h
  · rw [poke_nil]
  · exact Lib.poke_length h

/-- Two writes, the second right behind the first, are one. -/
theorem poke_poke {buf xs ys : List UInt8} {pos : ℕ}
    (h : pos + xs.length + ys.length ≤ buf.length) :
    poke (poke buf pos xs) (pos + xs.length) ys = poke buf pos (xs ++ ys) := by
  have hxs : (poke buf pos xs).length = buf.length := Lib.poke_length (by omega)
  ext1 i
  rw [getElem?_poke (by omega), getElem?_poke (by omega),
    getElem?_poke (by rw [List.length_append]; omega), List.length_append, List.getElem?_append]
  split_ifs with h₁ h₂ h₃ h₄ h₅ h₆ <;> first | rfl | omega | skip
  congr 1
  omega

theorem inside_append {size pos : ℕ} {xs ys : List UInt8} (h : xs ≠ []) :
    Inside size pos (xs ++ ys) ↔ Inside size pos xs ∧ Inside size (pos + xs.length) ys := by
  rw [Inside, Inside, Inside, List.append_eq_nil_iff, List.length_append]
  by_cases hys : ys = []
  · simp [h, hys]
  · simp only [h, hys, false_and, false_or]
    omega

theorem put_put {xs ys : List UInt8} (h : xs = [] → ys = []) (buf : List UInt8) (pos : ℕ) :
    (put buf pos xs >>= fun b => put b (pos + xs.length) ys) = put buf pos (xs ++ ys) := by
  by_cases hxs : xs = []
  · rw [hxs, h hxs]
    simp [put_eq, Inside, poke_nil, bind, Except.bind]
  · rw [put_eq, put_eq buf pos (xs ++ ys)]
    simp only [inside_append hxs]
    by_cases hin : Inside buf.length pos xs
    · have hlen : Inside (poke buf pos xs).length (pos + xs.length) ys ↔
          Inside buf.length (pos + xs.length) ys := by rw [hin.poke_length]
      rw [if_pos hin]
      change put (poke buf pos xs) (pos + xs.length) ys = _
      rw [put_eq]
      simp only [hlen, hin, true_and]
      by_cases hbehind : Inside buf.length (pos + xs.length) ys
      · have hpoke : poke (poke buf pos xs) (pos + xs.length) ys = poke buf pos (xs ++ ys) := by
          rcases hbehind with rfl | hle
          · rw [poke_nil, List.append_nil]
          · exact poke_poke hle
        rw [if_pos hbehind, if_pos hbehind, hpoke]
      · rw [if_neg hbehind, if_neg hbehind]
    · rw [if_neg hin, if_neg fun h => hin h.1]
      rfl

theorem clear_eq (n : ℕ) : s.clear n =
    if Inside s.buf.length s.curLen (List.replicate n 0) then
      .ok { s with
        buf := poke s.buf s.curLen (List.replicate n 0), curLen := uint32 (s.curLen + n) }
    else .error .outside := by
  rw [Packing.clear, put_eq]
  split_ifs <;> rfl

/-- A file that fits the room, as it is counted, goes down in one write with its zeros. -/
theorem read_eq (bytes : List UInt8) : s.read bytes =
    if ulong (s.buf.length + 2 ^ 64 - s.curLen) ≤ bytes.length then .error .rejected
    else if Inside s.buf.length s.curLen (padded bytes) then
      .ok { s with
        buf := poke s.buf s.curLen (padded bytes)
        curLen := uint32 (s.curLen + (padded bytes).length)
        opened := true }
    else .error .outside := by
  have hpad : bytes = [] → List.replicate (toRound 4 bytes.length) (0 : UInt8) = [] := by
    rintro rfl
    rfl
  have hput : _ = put s.buf s.curLen (padded bytes) := put_put hpad s.buf s.curLen
  rw [Packing.read]
  by_cases hroom : ulong (s.buf.length + 2 ^ 64 - s.curLen) ≤ bytes.length
  · rw [if_pos hroom, if_pos hroom]
  · rw [if_neg hroom, if_neg hroom, ← bind_assoc, hput, put_eq, padded_length]
    split_ifs <;> rfl

/-! ## Options -/

/-- A file that is read. -/
def Opt.reads : Opt → Bool
  | .file _ (.holds _) => true
  | _ => false

/-- There is memory for the offset, which is written by `p`. -/
def Packing.Slot (s : Packing) (o : Opt) : Prop :=
  o.first → s.held ∧ OFFSETS + 4 * s.i + 4 ≤ s.buf.length

instance (s : Packing) (o : Opt) : Decidable (s.Slot o) := inferInstanceAs (Decidable (_ → _))

/-- The block with the offset. -/
def Packing.slotted (s : Packing) (o : Opt) : List UInt8 :=
  if o.first then poke s.buf (OFFSETS + 4 * s.i) (leBytes 4 s.curLen) else s.buf

/-- What an option leaves that does not ask for another block. -/
def Packing.laid (s : Packing) (o : Opt) : Packing where
  buf := poke (s.slotted o) s.curLen (o.adds s.curLen)
  held := s.held
  curLen := uint32 (s.curLen + (o.adds s.curLen).length)
  i := if o.first then s.i + 1 else s.i
  opened := s.opened || o.reads
  blocks := s.blocks

/-- What `-m` leaves. -/
def Packing.resized (heap : ℕ → ℕ → UInt8) (s : Packing) (maxlen : ℕ) (moved : Bool) : Packing :=
  { s with
    buf := s.buf.take maxlen ++ tabulate (maxlen - s.buf.length) (heap s.blocks)
    held := s.held && !moved
    blocks := s.blocks + 1 }

/-- An option that does not ask for another block puts down what it adds, behind the offset of a
`-f` file, or is rejected. -/
def Packing.Lays (heap : ℕ → ℕ → UInt8) (s : Packing) (o : Opt) : Prop :=
  s.option heap o = if s.Slot o ∧ Inside s.buf.length s.curLen (o.adds s.curLen) then .ok (s.laid o)
    else .error .outside

/-- An option `-m` that is taken. -/
def Packing.Resizes (heap : ℕ → ℕ → UInt8) (s : Packing) (o : Opt) : Prop :=
  ∃ n moved, o = .maxlen (some n) (.block moved) ∧ 4096 ≤ toPage n ∧ toPage n < 2 ^ 64 ∧
    s.option heap o = .ok (s.resized heap (toPage n) moved)

theorem lays_clear {n : ℕ} (ho : o.first = false ∧ o.reads = false)
    (hadds : o.adds s.curLen = List.replicate n 0) (h : s.option heap o = s.clear n) :
    s.Lays heap o := by
  have hslot : s.Slot o := fun hfirst => absurd (ho.1.symm.trans hfirst) Bool.false_ne_true
  rw [Packing.Lays, h, clear_eq, hadds]
  simp only [hslot, true_and]
  have hlaid : s.laid o = { s with
      buf := poke s.buf s.curLen (List.replicate n 0), curLen := uint32 (s.curLen + n) } := by
    rw [Packing.laid, Packing.slotted, hadds, ho.1, ho.2, List.length_replicate, Bool.or_false]
    rfl
  rw [hlaid]

theorem outcome_append (bytes : List UInt8) :
    s.option heap (.file true (.holds bytes)) = .error .rejected ∨
      s.Lays heap (.file true (.holds bytes)) := by
  have hrun : s.option heap (.file true (.holds bytes)) = s.read bytes := by
    rw [Packing.option, Packing.addFile, if_pos rfl, pure_bind]
  rw [Packing.Lays, hrun, read_eq]
  by_cases hroom : ulong (s.buf.length + 2 ^ 64 - s.curLen) ≤ bytes.length
  · exact Or.inl (if_pos hroom)
  · right
    rw [if_neg hroom]
    simp [Packing.Slot, Opt.first, Opt.adds, Packing.laid, Packing.slotted, Opt.reads]

/-- The state behind the offset of a `-f` file. -/
def Packing.marked (s : Packing) : Packing :=
  { s with buf := poke s.buf (OFFSETS + 4 * s.i) (leBytes 4 s.curLen), i := s.i + 1 }

theorem store_eq (field n : ℕ) : s.store field n =
    if s.held ∧ field + 4 ≤ s.buf.length then
      .ok { s with buf := poke s.buf field (leBytes 4 n) }
    else .error .outside := by
  have hin : Inside s.buf.length field (leBytes 4 n) ↔ field + 4 ≤ s.buf.length := by
    rw [Inside, leBytes_length]
    exact or_iff_right fun heq => absurd (congrArg List.length heq) (by simp)
  rw [Packing.store, put_eq]
  simp only [hin]
  by_cases hheld : s.held
  · by_cases hle : field + 4 ≤ s.buf.length
    · simp [hheld, hle, bind, Except.bind, pure, Except.pure]
    · simp [hheld, hle, bind, Except.bind]
  · simp [hheld]

theorem ok_bind {ε α β : Type} (a : α) (f : α → Except ε β) : (Except.ok a >>= f) = f a := rfl

theorem error_bind {ε α β : Type} (e : ε) (f : α → Except ε β) :
    (Except.error e >>= f) = .error e := rfl

theorem option_first (bytes : List UInt8) : s.option heap (.file false (.holds bytes)) =
    if s.held ∧ OFFSETS + 4 * s.i + 4 ≤ s.buf.length then s.marked.read bytes
    else .error .outside := by
  rw [Packing.option, Packing.addFile, if_neg Bool.false_ne_true, store_eq]
  by_cases hslot : s.held ∧ OFFSETS + 4 * s.i + 4 ≤ s.buf.length
  · rw [if_pos hslot, if_pos hslot, ok_bind, pure_bind, Packing.marked]
  · rw [if_neg hslot, if_neg hslot, error_bind]

theorem marked_length (h : OFFSETS + 4 * s.i + 4 ≤ s.buf.length) :
    s.marked.buf.length = s.buf.length :=
  Lib.poke_length (by rw [leBytes_length]; exact h)

theorem lays_first (bytes : List UInt8)
    (hslot : s.held ∧ OFFSETS + 4 * s.i + 4 ≤ s.buf.length)
    (hroom : bytes.length < ulong (s.buf.length + 2 ^ 64 - s.curLen)) :
    s.Lays heap (.file false (.holds bytes)) := by
  have hlen := marked_length hslot.2
  have hroom' : ¬ ulong (s.marked.buf.length + 2 ^ 64 - s.marked.curLen) ≤ bytes.length := by
    rw [hlen]
    exact Nat.not_le.mpr hroom
  have hopen : (s.opened || Opt.reads (.file false (.holds bytes))) = true := Bool.or_true _
  have hboth : (s.Slot (.file false (.holds bytes)) ∧
        Inside s.buf.length s.curLen (Opt.adds s.curLen (.file false (.holds bytes)))) ↔
      Inside s.buf.length s.curLen (padded bytes) :=
    and_iff_right fun _ => hslot
  rw [Packing.Lays, option_first, if_pos hslot, read_eq, if_neg hroom', hlen, Packing.laid, hopen]
  simp only [hboth]
  rfl

theorem outcome_first (bytes : List UInt8) :
    s.option heap (.file false (.holds bytes)) = .error .rejected ∨
      s.Lays heap (.file false (.holds bytes)) := by
  by_cases hslot : s.held ∧ OFFSETS + 4 * s.i + 4 ≤ s.buf.length
  · by_cases hroom : ulong (s.buf.length + 2 ^ 64 - s.curLen) ≤ bytes.length
    · left
      have hlen := marked_length hslot.2
      rw [option_first, if_pos hslot, read_eq, hlen]
      exact if_pos hroom
    · exact Or.inr (lays_first bytes hslot (Nat.lt_of_not_le hroom))
  · right
    rw [Packing.Lays, option_first, if_neg hslot, if_neg]
    exact fun h => hslot (h.1 rfl)

theorem resizes_block (n : Fin (2 ^ 64)) (moved : Bool) :
    s.option heap (.maxlen (some n) (.block moved)) = .error .rejected ∨
      s.Resizes heap (.maxlen (some n) (.block moved)) := by
  have hrun : s.option heap (.maxlen (some n) (.block moved)) =
      if ulong (toPage n) < 0x1000 then .error .rejected
      else .ok (s.resized heap (ulong (toPage n)) moved) := by
    rw [Packing.option, Packing.resize.eq_def]
    rfl
  by_cases hsmall : ulong (toPage n) < 0x1000
  · exact Or.inl (hrun.trans (if_pos hsmall))
  · have hpage : toPage n ≤ 2 ^ 64 := by
      have hn := n.isLt
      rw [toPage_eq]
      omega
    have hlt : toPage n < 2 ^ 64 := by
      refine hpage.lt_of_ne fun heq => hsmall ?_
      rw [heq, ulong, Nat.mod_self]
      decide
    have hulong : ulong (toPage n) = toPage n := Nat.mod_eq_of_lt hlt
    rw [hulong] at hsmall hrun
    rw [if_neg hsmall] at hrun
    exact Or.inr ⟨n, moved, rfl, Nat.le_of_not_lt hsmall, hlt, hrun⟩

/-- What an option can do. The offset of a file that cannot be read is written all the same. -/
inductive Packing.Outcome (heap : ℕ → ℕ → UInt8) (s : Packing) (o : Opt) : Prop where
  | rejected (h : s.option heap o = .error .rejected)
  | resizes (h : s.Resizes heap o)
  | lays (ho : ∀ arg answer, o ≠ .maxlen arg answer) (h : s.Lays heap o)
  | outside (ho : ¬ (s.held ∧ OFFSETS + 4 * s.i + 4 ≤ s.buf.length))
      (h : s.option heap o = .error .outside)

theorem outcome_unread {arg : File} (append : Bool) (harg : ∀ bytes, arg ≠ .holds bytes) :
    s.Outcome heap (.file append arg) := by
  cases append with
  | true =>
    apply Packing.Outcome.rejected
    rw [Packing.option, Packing.addFile, if_pos rfl, pure_bind]
    cases arg with
    | holds bytes => exact absurd rfl (harg bytes)
    | _ => rfl
  | false =>
    by_cases hslot : s.held ∧ OFFSETS + 4 * s.i + 4 ≤ s.buf.length
    · apply Packing.Outcome.rejected
      rw [Packing.option, Packing.addFile, if_neg Bool.false_ne_true, store_eq, if_pos hslot]
      cases arg with
      | holds bytes => exact absurd rfl (harg bytes)
      | _ => rfl
    · apply Packing.Outcome.outside hslot
      rw [Packing.option, Packing.addFile, if_neg Bool.false_ne_true, store_eq, if_neg hslot]
      rfl

theorem outcome (heap : ℕ → ℕ → UInt8) (hs : s.curLen < 2 ^ 32) (o : Opt) :
    s.Outcome heap o := by
  have hsame : s.clear 0 = .ok s := by
    have hin : Inside s.buf.length s.curLen [] := Or.inl rfl
    rw [clear_eq, List.replicate_zero, if_pos hin, poke_nil, Nat.add_zero, uint32,
      Nat.mod_eq_of_lt hs]
  cases o with
  | file append arg =>
    cases arg with
    | missing => exact outcome_unread append nofun
    | broken => exact outcome_unread append nofun
    | holds bytes =>
      cases append with
      | true => exact (outcome_append bytes).elim .rejected (.lays nofun)
      | false => exact (outcome_first bytes).elim .rejected (.lays nofun)
  | output opens =>
    cases opens with
    | false => exact .rejected rfl
    | true => exact .lays nofun (lays_clear ⟨rfl, rfl⟩ rfl hsame.symm)
  | maxlen arg answer =>
    cases arg with
    | none => exact .rejected rfl
    | some n =>
      cases answer with
      | failed =>
        apply Packing.Outcome.rejected
        rw [Packing.option, Packing.resize.eq_def]
        exact ite_self _
      | block moved => exact (resizes_block n moved).elim .rejected .resizes
  | align arg =>
    cases arg with
    | none => exact .rejected rfl
    | some n => exact .lays nofun (lays_clear ⟨rfl, rfl⟩ rfl rfl)
  | offset arg =>
    cases arg with
    | none => exact .rejected rfl
    | some n =>
      have hrun : s.option heap (.offset (some n)) = s.clear (n - s.curLen) := by
        rw [Packing.option, Packing.moveTo]
        split_ifs with hlt
        · rw [Nat.sub_eq_zero_of_le hlt.le, hsame]
        · rfl
      exact .lays nofun (lays_clear ⟨rfl, rfl⟩ rfl hrun)
  | unknown => exact .rejected rfl

end EzpFirmware.FirmwareUtils
