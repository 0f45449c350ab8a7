import EzpFirmware.Lib.LittleEndian

/-! # Flash memory

Erasing sets a range of bytes to ones, and programming can only clear bits. A
history of a device is kept with care if every byte that is programmed was
erased before, and is neither programmed nor erased again.
-/
namespace EzpFirmware.Lib

theorem ones_and (b : UInt8) : 0xff &&& b = b := UInt8.neg_one_and

/-- What is done to a flash device. -/
inductive FlashOp where
  | erase (start len : ℕ)
  | program (start : ℕ) (data : List UInt8)

/-- The addresses that an operation erases. -/
def FlashOp.Erases : FlashOp → ℕ → Prop
  | .erase start len, a => start ≤ a ∧ a < start + len
  | .program _ _, _ => False

/-- The addresses that an operation programs. -/
def FlashOp.Programs : FlashOp → ℕ → Prop
  | .erase _ _, _ => False
  | .program start data, a => start ≤ a ∧ a < start + data.length

/-- A device: its bytes, and what was done to it. -/
structure Flash where
  mem : ℕ → UInt8
  ops : List FlashOp

/-- Erase a range. -/
def Flash.erase (f : Flash) (start len : ℕ) : Flash where
  mem a := if start ≤ a ∧ a < start + len then 0xff else f.mem a
  ops := f.ops ++ [.erase start len]

/-- Program a run of bytes: what was there is masked by them. -/
def Flash.program (f : Flash) (start : ℕ) (data : List UInt8) : Flash where
  mem a := if start ≤ a ∧ a < start + data.length then f.mem a &&& data.getD (a - start) 0xff
    else f.mem a
  ops := f.ops ++ [.program start data]

/-- Every programmed byte was erased before and is left alone afterwards. -/
structure Careful (ops : List FlashOp) : Prop where
  erased : ∀ pre op post, ops = pre ++ op :: post → ∀ a, op.Programs a → ∃ o ∈ pre, o.Erases a
  final : ops.Pairwise fun o o' => ∀ a, o.Programs a → ¬ o'.Programs a ∧ ¬ o'.Erases a

/-- A device in use from its start on: everything below `p` is programmed, everything from
there to `e` is erased. -/
structure Flash.Filled (f : Flash) (p e : ℕ) : Prop where
  careful : Careful f.ops
  le : p ≤ e
  blank : ∀ a, p ≤ a → a < e → f.mem a = 0xff
  erased : ∀ a < e, ∃ o ∈ f.ops, o.Erases a
  programmed : ∀ o ∈ f.ops, ∀ a, o.Programs a → a < p

/-- One more operation at the end of a history. -/
theorem Careful.snoc {ops : List FlashOp} (h : Careful ops) {op : FlashOp}
    (herased : ∀ a, op.Programs a → ∃ o ∈ ops, o.Erases a)
    (hfinal : ∀ o ∈ ops, ∀ a, o.Programs a → ¬ op.Programs a ∧ ¬ op.Erases a) :
    Careful (ops ++ [op]) := by
  constructor
  · intro pre o post heq a ha
    rcases List.eq_nil_or_concat post with rfl | ⟨init, last, rfl⟩
    · have hparts := List.append_inj' heq rfl
      obtain ⟨rfl, hop⟩ := hparts
      rw [List.cons.injEq] at hop
      exact herased a (hop.1 ▸ ha)
    · have hsplit : ops ++ [op] = (pre ++ o :: init) ++ [last] := by simpa using heq
      exact h.erased pre o init (List.append_inj' hsplit rfl).1 a ha
  · rw [List.pairwise_append]
    refine ⟨h.final, List.pairwise_singleton _ _, ?_⟩
    intro o ho o' ho'
    rw [List.mem_singleton] at ho'
    rw [ho']
    exact hfinal o ho

theorem Careful.nil : Careful [] := ⟨by simp, List.Pairwise.nil⟩

theorem Flash.filled_new (mem : ℕ → UInt8) : (Flash.mk mem []).Filled 0 0 where
  careful := Careful.nil
  le := Nat.le_refl 0
  blank := by omega
  erased := by omega
  programmed := by simp

/-- The next block is erased. -/
theorem Flash.Filled.erase {f : Flash} {p e : ℕ} (h : f.Filled p e) (len : ℕ) :
    (f.erase e len).Filled p (e + len) where
  careful := by
    apply h.careful.snoc
    · intro a ha
      exact ha.elim
    · intro o ho a ha
      have hap := h.programmed o ho a ha
      have hle := h.le
      constructor
      · exact id
      · intro hae
        have hea := hae.1
        omega
  le := Nat.le_trans h.le (Nat.le_add_right e len)
  blank := by
    intro a hpa hae
    by_cases hin : e ≤ a ∧ a < e + len
    · exact if_pos hin
    · have hlt : a < e := by omega
      have hold := h.blank a hpa hlt
      simpa [Flash.erase, hin] using hold
  erased := by
    intro a ha
    by_cases hlt : a < e
    · obtain ⟨o, ho, hoa⟩ := h.erased a hlt
      exact ⟨o, List.mem_append_left _ ho, hoa⟩
    · exact ⟨.erase e len, List.mem_append_right _ (List.mem_singleton_self _), by omega, ha⟩
  programmed := by
    intro o ho a ha
    rw [Flash.erase, List.mem_append, List.mem_singleton] at ho
    rcases ho with ho | rfl
    · exact h.programmed o ho a ha
    · exact ha.elim

/-- Erased bytes are programmed. -/
theorem Flash.Filled.program {f : Flash} {p e : ℕ} (h : f.Filled p e) {data : List UInt8}
    (hroom : p + data.length ≤ e) : (f.program p data).Filled (p + data.length) e where
  careful := by
    apply h.careful.snoc
    · intro a ha
      have hae := ha.2
      exact h.erased a (by omega)
    · intro o ho a ha
      have hap := h.programmed o ho a ha
      constructor
      · intro hag
        have hpa := hag.1
        omega
      · exact id
  le := hroom
  blank := by
    intro a hpa hae
    have hold := h.blank a (by omega) hae
    have hout : ¬ (p ≤ a ∧ a < p + data.length) := by omega
    simpa [Flash.program, hout] using hold
  erased := by
    intro a ha
    obtain ⟨o, ho, hoa⟩ := h.erased a ha
    exact ⟨o, List.mem_append_left _ ho, hoa⟩
  programmed := by
    intro o ho a ha
    rw [Flash.program, List.mem_append, List.mem_singleton] at ho
    rcases ho with ho | rfl
    · have hap := h.programmed o ho a ha
      omega
    · exact ha.2

/-- What stands below the erased part stays when that part is programmed. -/
theorem Flash.Filled.bytesAt_program {f : Flash} {p e : ℕ} (h : f.Filled p e)
    {data : List UInt8} (hroom : p + data.length ≤ e) :
    bytesAt (f.program p data).mem 0 (p + data.length) = bytesAt f.mem 0 p ++ data := by
  rw [bytesAt_add, Nat.zero_add]
  congr 1
  · apply List.map_congr_left
    intro a ha
    rw [List.mem_range] at ha
    have hout : ¬ (p ≤ a ∧ a < p + data.length) := by omega
    simp [Flash.program, hout]
  · apply List.ext_getElem
    · simp
    · intro i hi hi'
      have hblank : f.mem (p + i) = 0xff := h.blank (p + i) (by omega) (by omega)
      simp [bytesAt, Flash.program, hi', hblank, ones_and]

/-- Erasing a block behind the programmed part leaves it as it is. -/
theorem Flash.Filled.bytesAt_erase {f : Flash} {p e : ℕ} (h : f.Filled p e) (len : ℕ) :
    bytesAt (f.erase e len).mem 0 p = bytesAt f.mem 0 p := by
  have hle := h.le
  apply List.map_congr_left
  intro a ha
  rw [List.mem_range] at ha
  have hout : ¬ (e ≤ a ∧ a < e + len) := by omega
  simp [Flash.erase, hout]

end EzpFirmware.Lib
