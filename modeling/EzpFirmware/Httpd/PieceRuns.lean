import EzpFirmware.Httpd.Entries
import EzpFirmware.Lib.Layout

/-! # Runs over the pieces of a query

The loop goes from piece to piece. The entries it has made point to what is in
front of the next piece, which no later round touches.
-/
namespace EzpFirmware.Httpd
open Lib

/-- The variables after a decoded piece. -/
def assigned (F : Form) (t : CStr) : Form :=
  match CStr.cut KernelNvram.EQ t with
  | none => F
  | some a => Function.update F a.1 (some a.2)

/-! ## One round -/

/-- The loop is in front of some pieces, with zeros before them. -/
structure AtPieces (b : Buffer) (stop k : ℕ) (ps : List (List UInt8)) (rest : List UInt8) (c : Cgi)
    (q : ℕ) : Prop where
  mem : ∃ front, front.length + k = q ∧
    c.mem b = front ++ List.replicate k 0 ++ (pieceMem ps ++ rest)
  stop : q + (pieceMem ps).length = stop + 1
  table : ∃ t, c.htab = some t ∧ t.entries.length + ps.length ≤ t.size ∧
    Sealed (c.mem b) b q t.entries

section
variable {L : Libc} {b : Buffer} {stop k q : ℕ} {p : List UInt8} {ps ps' : List (List UInt8)}
  {rest : List UInt8} {c c' : Cgi} {t : CStr} {z : ℕ}

/-- An empty piece is one more zero. -/
theorem AtPieces.empty (h : AtPieces b stop k ([] :: ps) rest c q) :
    AtPieces b stop (k + 1) ps rest c (q + 1) := by
  obtain ⟨front, hfront, hmem⟩ := h.mem
  obtain ⟨t, ht, hroom, hsealed⟩ := h.table
  have hstop := h.stop
  rw [pieceMem_cons, List.nil_append, List.length_cons] at hstop
  rw [List.length_cons] at hroom
  refine ⟨⟨front, by omega, ?_⟩, by omega, t, ht, by omega, hsealed.mono (Nat.le_succ q)⟩
  rw [hmem, pieceMem_cons, List.replicate_succ']
  simp only [List.append_assoc, List.cons_append, List.nil_append]

theorem AtPieces.take_drop (h : AtPieces b stop k ps rest c q) :
    ((c.mem b).take q).length = q ∧ (c.mem b).drop q = pieceMem ps ++ rest := by
  obtain ⟨front, hfront, hmem⟩ := h.mem
  have hlen : (front ++ List.replicate k (0 : UInt8)).length = q := by
    rw [List.length_append, List.length_replicate, hfront]
  rw [hmem]
  exact ⟨by rw [List.take_left' hlen, hlen], List.drop_left' hlen⟩

/-- The next piece is found behind the zeros. -/
theorem AtPieces.skip (h : AtPieces b stop k (p :: ps) rest c q) (hp : p ≠ [])
    (h0 : (0 : UInt8) ∉ p) : skipZeros (c.mem b) stop (q - k) = q ∧ q < stop := by
  obtain ⟨front, hfront, hmem⟩ := h.mem
  have hstop := h.stop
  obtain ⟨a, s, rfl⟩ := List.exists_cons_of_ne_nil hp
  rw [List.mem_cons, not_or] at h0
  rw [pieceMem_cons, List.length_append, List.length_cons, List.length_cons] at hstop
  have hdrop : (c.mem b).drop (q - k) =
      List.replicate k 0 ++ (pieceMem ((a :: s) :: ps) ++ rest) := by
    rw [hmem, List.append_assoc]
    exact List.drop_left' (by omega)
  obtain ⟨j, hj⟩ : ∃ j, stop - (q - k) = k + (j + 1) := ⟨stop - q - 1, by omega⟩
  refine ⟨?_, by omega⟩
  rw [skipZeros, hdrop, hj, List.take_append, List.take_of_length_le (by simp),
    List.length_replicate, Nat.add_sub_cancel_left, pieceMem_cons, List.cons_append,
    List.cons_append, List.take_succ_cons, List.takeWhile_append_of_pos (by simp),
    List.takeWhile_cons_of_neg (by simpa using Ne.symm h0.1), List.append_nil,
    List.length_replicate]
  omega

/-- Behind the last piece the loop ends. -/
theorem AtPieces.last (h : AtPieces b stop k [] rest c q) :
    stop ≤ skipZeros (c.mem b) stop (q - k) := by
  obtain ⟨front, hfront, hmem⟩ := h.mem
  have hstop : q + 0 = stop + 1 := h.stop
  have hdrop : (c.mem b).drop (q - k) = List.replicate k 0 ++ rest := by
    rw [hmem, List.append_assoc]
    exact List.drop_left' (by omega)
  rw [skipZeros, hdrop, List.take_append_of_le_length (by rw [List.length_replicate]; omega),
    List.take_replicate, List.takeWhile_eq_self_iff.mpr (by simp), List.length_replicate]
  omega

theorem poke_middle (x y : List UInt8) (a d : UInt8) :
    poke (x ++ a :: y) x.length [d] = x ++ d :: y := by
  rw [poke, List.take_left' rfl, List.length_singleton, ← List.drop_drop, List.drop_left,
    List.append_assoc]
  rfl

theorem skipZeros_congr {m m' : List UInt8} (h : m'.drop q = m.drop q) :
    skipZeros m' stop q = skipZeros m stop q := by
  rw [skipZeros, skipZeros, h]

/-! The memory of an assignment: what is in front of it, its two texts with a zero between them, and
some zeros. -/

section
variable {front : List UInt8} {a : CStr × CStr}

/-- The separator is replaced by the zero. -/
theorem poke_separator (hfront : front.length = q) (hcut : CStr.cut KernelNvram.EQ t = some a)
    (tail : List UInt8) : poke (front ++ (t.val ++ tail)) (q + a.1.len) [0] =
      front ++ (a.1.val ++ 0 :: a.2.val) ++ tail := by
  have hval : t.val = a.1.val ++ KernelNvram.EQ :: a.2.val :=
    congrArg Subtype.val (CStr.eq_glue_of_cut KernelNvram.EQ_ne_zero hcut)
  have hsplit : front ++ (t.val ++ tail) =
      (front ++ a.1.val) ++ KernelNvram.EQ :: (a.2.val ++ tail) := by
    rw [hval]
    simp only [List.append_assoc, List.cons_append]
  have hplace : q + a.1.len = (front ++ a.1.val).length := by
    rw [List.length_append, hfront]
    rfl
  rw [hsplit, hplace, poke_middle]
  simp only [List.append_assoc, List.cons_append]

theorem divided_length (hfront : front.length = q) (hcut : CStr.cut KernelNvram.EQ t = some a) :
    (front ++ (a.1.val ++ 0 :: a.2.val)).length = q + t.len := by
  rw [List.length_append, List.length_append, List.length_cons, hfront, CStr.cut_length hcut]
  change q + (a.1.len + (a.2.len + 1)) = _
  omega

theorem divided_name (hfront : front.length = q) (tail : List UInt8) :
    CStr.read ((front ++ (a.1.val ++ 0 :: a.2.val) ++ tail).drop q) = a.1 := by
  rw [List.append_assoc, List.drop_left' hfront, List.append_assoc, List.cons_append,
    read_append_zero a.1.property]

theorem divided_value (hfront : front.length = q) (tail : List UInt8) :
    CStr.read ((front ++ (a.1.val ++ 0 :: a.2.val) ++ (List.replicate (z + 1) 0 ++ tail)).drop
      (q + a.1.len + 1)) = a.2 := by
  have hsplit : front ++ (a.1.val ++ 0 :: a.2.val) ++ (List.replicate (z + 1) 0 ++ tail) =
      (front ++ a.1.val ++ [0]) ++ (a.2.val ++ List.replicate (z + 1) 0 ++ tail) := by
    simp only [List.append_assoc, List.cons_append, List.nil_append]
  have hplace : (front ++ a.1.val ++ [0]).length = q + a.1.len + 1 := by
    rw [List.length_append, List.length_append, hfront]
    rfl
  rw [hsplit, List.drop_left' hplace, read_zeros a.2.property, CStr.read_of_free a.2.property]

/-- What starts in front of the zeros ends with them. -/
theorem below_zeros (tail : List UInt8) {x : ℕ} (hx : x ≤ front.length) :
    Below (front ++ (List.replicate (z + 1) 0 ++ tail)) b (front.length + (z + 1)) ⟨b, x⟩ := by
  refine ⟨rfl, ?_⟩
  rw [← List.append_assoc,
    List.take_left' (by rw [List.length_append, List.length_replicate]),
    List.drop_append_of_le_length hx]
  exact List.mem_append_right _ (by simp)

end

/-- The loop behind a piece that was decoded to a text and zeros. -/
theorem AtPieces.next (h : AtPieces b stop k (p :: ps) rest c q)
    (hlen : t.len + (z + 1) + (pieceMem ps').length = p.length + 1 + (pieceMem ps).length)
    (hps : ps'.length ≤ ps.length) {front : List UInt8} (hfront : front.length = q + t.len)
    (hmem : c'.mem b = front ++ (List.replicate (z + 1) 0 ++ (pieceMem ps' ++ rest)))
    {table : Table} (ht : c'.htab = some table)
    (hroom : table.entries.length + ps.length ≤ table.size)
    (hsealed : Sealed (c'.mem b) b (q + t.len + (z + 1)) table.entries) :
    AtPieces b stop (z + 1) ps' rest c' (q + t.len + (z + 1)) := by
  have hstop := h.stop
  rw [pieceMem_cons, List.length_append, List.length_cons] at hstop
  refine ⟨⟨front, by rw [hfront], ?_⟩, by omega, table, ht, by omega, hsealed⟩
  rw [hmem, List.append_assoc]

/-- A round of the loop, for what the decoder makes of the piece: a text, and zeros in front of the
pieces that are left. -/
theorem AtPieces.step (h : AtPieces b stop k (p :: ps) rest c q) {junk : UInt8}
    (hrun : unescape L (p ++ 0 :: (pieceMem ps ++ rest)).length junk
        (p ++ 0 :: (pieceMem ps ++ rest)) =
      t.val ++ List.replicate (z + 1) 0 ++ (pieceMem ps' ++ rest))
    (hlen : t.len + (z + 1) + (pieceMem ps').length = p.length + 1 + (pieceMem ps).length)
    (hps : ps'.length ≤ ps.length) :
    (assignCgi L junk b stop q c).1 =
        skipZeros ((assignCgi L junk b stop q c).2.mem b) stop (q + t.len) ∧
      AtPieces b stop (z + 1) ps' rest (assignCgi L junk b stop q c).2 (q + t.len + (z + 1)) ∧
      getCgi L (assignCgi L junk b stop q c).2 = assigned (getCgi L c) t := by
  obtain ⟨hfront, hdrop⟩ := h.take_drop
  obtain ⟨table, ht, hroom, hsealed⟩ := h.table
  rw [List.length_cons] at hroom
  rw [pieceMem_cons, List.append_assoc, List.cons_append] at hdrop
  set front := (c.mem b).take q with hfrontdef
  set tail := List.replicate (z + 1) 0 ++ (pieceMem ps' ++ rest) with htail
  have hat : unescapeAt L junk q (c.mem b) = front ++ (t.val ++ tail) := by
    rw [unescapeAt, ← hfrontdef, hdrop, hrun, List.append_assoc]
  have hname : CStr.read ((front ++ (t.val ++ tail)).drop q) = t := by
    rw [List.drop_left' hfront, htail, ← List.append_assoc, read_zeros t.property,
      CStr.read_of_free t.property]
  unfold assignCgi
  rw [hat]
  dsimp only
  rw [hname]
  cases hcut : CStr.cut KernelNvram.EQ t with
  | none =>
    have htake : (front ++ (t.val ++ tail)).take q = front := List.take_left' hfront
    have hlead : (front ++ t.val).length = q + t.len := by
      rw [List.length_append, hfront]
      rfl
    have ht₁ := (setMem_htab c (front ++ (t.val ++ tail)) b).trans ht
    dsimp only
    refine ⟨by rw [setMem_mem], ?_, ?_⟩
    · refine h.next hlen hps hlead (by rw [setMem_mem, List.append_assoc]) ht₁ (by omega) ?_
      rw [setMem_mem]
      exact (hsealed.congr htake).mono (by omega)
    · rw [assigned, hcut]
      exact hsealed.getCgi ht ht₁ (by rw [setMem_mem, htake])
  | some a =>
    have hlength := divided_length hfront hcut
    dsimp only
    rw [poke_separator hfront hcut]
    set c₁ := c.setMem (front ++ (a.1.val ++ 0 :: a.2.val) ++ tail) b with hc₁
    have hmem₁ : c₁.mem b = front ++ (a.1.val ++ 0 :: a.2.val) ++ tail := setMem_mem _ _ _
    have ht₁ : c₁.htab = some table := (setMem_htab _ _ _).trans ht
    have htake₁ : (c₁.mem b).take q = front := by
      rw [hmem₁, List.append_assoc]
      exact List.take_left' hfront
    have hbelow {x : ℕ} (hx : x ≤ q + t.len) : Below (c₁.mem b) b (q + t.len + (z + 1)) ⟨b, x⟩ := by
      rw [hmem₁, ← hlength]
      exact below_zeros _ (hx.trans_eq hlength.symm)
    have hvalue : q + a.1.len + 1 ≤ q + t.len := by
      rw [CStr.cut_length hcut]
      omega
    obtain ⟨table', ht', hsize, hmore, hsealed'⟩ := @setCgi_table L _ _ _ _ ht₁ _
      ((hsealed.congr htake₁).mono (by omega)) ⟨b, q⟩ ⟨b, q + a.1.len + 1⟩ (hbelow (by omega))
      (hbelow hvalue)
    have hmem' : (setCgi L ⟨b, q⟩ ⟨b, q + a.1.len + 1⟩ c₁).mem b = c₁.mem b := setCgi_mem _ _ _ _
    refine ⟨?_, ?_, ?_⟩
    · rw [hmem', hmem₁]
      refine skipZeros_congr ?_
      rw [List.drop_left' hlength, ← List.append_assoc]
      exact List.drop_left' (by rw [List.length_append, hfront]; rfl)
    · refine h.next hlen hps hlength (hmem'.trans hmem₁) ht' (by omega) ?_
      rw [hmem']
      exact hsealed'
    · have hnametext : c₁.text ⟨b, q⟩ = a.1 := by
        rw [Cgi.text, hmem₁, divided_name hfront]
      have hvaluetext : c₁.text ⟨b, q + a.1.len + 1⟩ = a.2 := by
        rw [Cgi.text, hmem₁, divided_value hfront]
      rw [getCgi_setCgi ht₁ (by omega), hnametext, hvaluetext, assigned, hcut]
      dsimp only
      rw [hsealed.getCgi ht ht₁ htake₁]

/-! ## The whole loop -/

theorem AtPieces.stop_le (h : AtPieces b stop k ps rest c q) : stop ≤ (c.mem b).length := by
  obtain ⟨front, hfront, hmem⟩ := h.mem
  have hstop := h.stop
  rw [hmem, List.length_append, List.length_append, List.length_append, List.length_replicate]
  omega

/-- The loop at a nonempty piece. -/
theorem AtPieces.round (h : AtPieces b stop k (p :: ps) rest c q) (hp : p ≠ [])
    (h0 : (0 : UInt8) ∉ p) {junk : UInt8} {n : ℕ}
    (hn : stop - skipZeros (c.mem b) stop (q - k) ≤ n) :
    ∃ n', stop - (assignCgi L junk b stop q c).1 ≤ n' ∧
      assignments L junk b stop n (skipZeros (c.mem b) stop (q - k)) c =
        assignments L junk b stop n' (assignCgi L junk b stop q c).1
          (assignCgi L junk b stop q c).2 := by
  obtain ⟨hskip, hlt⟩ := h.skip hp h0
  rw [hskip] at hn ⊢
  obtain ⟨n, rfl⟩ := Nat.exists_eq_succ_of_ne_zero (show n ≠ 0 by omega)
  have hnext := (assignCgi_step (L := L) junk hlt h.stop_le).1
  exact ⟨n, by omega, by rw [assignments, if_pos hlt]⟩

/-- Behind the last piece nothing is assigned. -/
theorem AtPieces.done (h : AtPieces b stop k [] rest c q) (junk : UInt8) (n : ℕ) :
    assignments L junk b stop n (skipZeros (c.mem b) stop (q - k)) c = c := by
  have hlast := h.last
  cases n with
  | zero => rfl
  | succ n => rw [assignments, if_neg (by omega)]

/-- Every first escape is whole where it stands. -/
def WholePieces (L : Libc) : List (List UInt8) → List UInt8 → Prop
  | [], _ => True
  | p :: ps, rest => WholeIn L p (pieceMem ps ++ rest) ∧ WholePieces L ps rest

/-- A piece is decoded without a zero. -/
def NulFree (L : Libc) (p : List UInt8) : Prop := ∀ c ≠ 0, (0 : UInt8) ∉ decode L c p

/-- A piece is decoded to a text, with nothing but zeros behind it. -/
def NulsLast (L : Libc) (p : List UInt8) : Prop :=
  ∀ c ≠ 0, ∃ (t : CStr) (z : ℕ), decode L c p = t.val ++ List.replicate z 0

theorem NulFree.last {p : List UInt8} (h : NulFree L p) : NulsLast L p :=
  fun c hc => ⟨⟨decode L c p, h c hc⟩, 0, (List.append_nil _).symm⟩

/-- The text that a piece stands for. -/
def decoded (L : Libc) (p : List UInt8) : CStr := CStr.read (decode L 1 p)

/-- The variables of some pieces, each decoded by itself. -/
def assignedAll (L : Libc) (F : Form) (ps : List (List UInt8)) : Form :=
  ps.foldl (fun F p => assigned F (decoded L p)) F

/-- A round for a piece that is whole. -/
theorem AtPieces.step_whole (hL : L.EmptyFails) (h : AtPieces b stop k (p :: ps) rest c q)
    (hw : WholeIn L p (pieceMem ps ++ rest)) (h0 : (0 : UInt8) ∉ p) (hnul : NulsLast L p)
    (junk : UInt8) : ∃ q' k', (assignCgi L junk b stop q c).1 =
        skipZeros ((assignCgi L junk b stop q c).2.mem b) stop (q' - k') ∧
      AtPieces b stop k' ps rest (assignCgi L junk b stop q c).2 q' ∧
      getCgi L (assignCgi L junk b stop q c).2 = assigned (getCgi L c) (decoded L p) := by
  obtain ⟨t, y, hval⟩ := hnul 1 (by decide)
  have hdecoded : decoded L p = t := by
    apply Subtype.ext
    rw [decoded, hval]
    cases y with
    | zero => rw [List.replicate_zero, List.append_nil, CStr.read_of_free t.property]
    | succ y =>
      rw [← List.append_nil (List.replicate _ _), ← List.append_assoc, read_zeros t.property,
        CStr.read_of_free t.property]
  obtain ⟨z, hrun, hlen⟩ := unescape_whole hL hw h0 junk 1
    (n := (p ++ 0 :: (pieceMem ps ++ rest)).length) (by rw [List.length_append]; omega)
  rw [hval, List.append_assoc t.val, ← List.replicate_add, ← Nat.add_assoc] at hrun
  rw [hval, List.length_append, List.length_replicate] at hlen
  rw [hdecoded]
  obtain ⟨hnext, hat, hget⟩ := h.step hrun (by rw [CStr.len]; omega) le_rfl
  exact ⟨_, _, by rw [hnext, Nat.add_sub_cancel], hat, hget⟩

/-- Whole pieces are decoded one after another, up to the others. -/
theorem AtPieces.run_whole (hL : L.EmptyFails) {qs : List (List UInt8)}
    (h : AtPieces b stop k (ps ++ qs) rest c q) (hw : WholePieces L ps (pieceMem qs ++ rest))
    (h0 : ∀ p ∈ ps, (0 : UInt8) ∉ p) (hnul : ∀ p ∈ ps, NulsLast L p) (junk : UInt8) {n : ℕ}
    (hn : stop - skipZeros (c.mem b) stop (q - k) ≤ n) :
    ∃ c' q' k' n', AtPieces b stop k' qs rest c' q' ∧
      getCgi L c' = assignedAll L (getCgi L c) ps ∧
      stop - skipZeros (c'.mem b) stop (q' - k') ≤ n' ∧
      assignments L junk b stop n (skipZeros (c.mem b) stop (q - k)) c =
        assignments L junk b stop n' (skipZeros (c'.mem b) stop (q' - k')) c' := by
  induction ps generalizing c q k n with
  | nil => exact ⟨c, q, k, n, h, rfl, hn, rfl⟩
  | cons p ps ih =>
    obtain ⟨hp, hps⟩ := hw
    have h0' := fun p hp => h0 p (List.mem_cons_of_mem _ hp)
    have hnul' := fun p hp => hnul p (List.mem_cons_of_mem _ hp)
    by_cases hempty : p = []
    · subst hempty
      have hsame : q + 1 - (k + 1) = q - k := by omega
      have hrun := ih h.empty hps h0' hnul' (n := n) (by rw [hsame]; exact hn)
      rw [hsame] at hrun
      exact hrun
    · obtain ⟨n', hn', hround⟩ := @AtPieces.round L _ _ _ _ _ _ _ _ h hempty
        (h0 p List.mem_cons_self) junk _ hn
      have hp' : WholeIn L p (pieceMem (ps ++ qs) ++ rest) := by
        rwa [pieceMem_append, List.append_assoc]
      obtain ⟨q', k', hnext, hat, hget⟩ := h.step_whole hL hp' (h0 p List.mem_cons_self)
        (hnul p List.mem_cons_self) junk
      rw [hnext] at hn' hround
      obtain ⟨c', q'', k'', n'', hat', hget', hn'', hrun⟩ := ih hat hps h0' hnul' hn'
      exact ⟨c', q'', k'', n'', hat', by rw [hget', hget]; rfl, hn'', hround.trans hrun⟩

/-! ## The start -/

/-- A table has room for as many entries as it is made for. -/
def Libc.Roomy (L : Libc) : Prop := ∀ nel, nel ≤ L.tableSize nel

theorem setMem_self (c : Cgi) (b : Buffer) : c.setMem (c.mem b) b = c := by
  cases b <;> rfl

/-- The zeros in front of the first piece are skipped. -/
theorem AtPieces.start (h : AtPieces b stop 0 ps rest c q) (hq : q ≤ stop) (junk : UInt8) :
    ∃ n, stop - skipZeros (c.mem b) stop (q - 0) ≤ n ∧
      assignments L junk b stop (stop - q) q c =
        assignments L junk b stop n (skipZeros (c.mem b) stop (q - 0)) c := by
  have hge := skipZeros_ge (c.mem b) stop q
  obtain ⟨hfront, hdrop⟩ := h.take_drop
  rw [Nat.sub_zero]
  by_cases hlt : q < stop
  · obtain ⟨n, hn⟩ := Nat.exists_eq_succ_of_ne_zero (show stop - q ≠ 0 by omega)
    cases hhead : (c.mem b).drop q with
    | nil =>
      have hlen := h.stop_le
      rw [List.drop_eq_nil_iff] at hhead
      omega
    | cons a s =>
      by_cases ha : a = 0
      · subst ha
        have hsplit : c.mem b = (c.mem b).take q ++ 0 :: s := by
          rw [← hhead, List.take_append_drop]
        have hat : unescapeAt L junk q (c.mem b) = c.mem b := by
          rw [unescapeAt, hhead, unescape_zero, ← hsplit]
        have hone : assignCgi L junk b stop q c = (skipZeros (c.mem b) stop q, c) := by
          have hread : CStr.read ((c.mem b).drop q) = CStr.empty := by
            rw [hhead]
            rfl
          unfold assignCgi
          rw [hat]
          dsimp only
          rw [hread, setMem_self]
          rfl
        have hstep := (assignCgi_step (L := L) junk hlt h.stop_le).1
        rw [hone] at hstep
        dsimp only at hstep
        refine ⟨n, by omega, ?_⟩
        rw [hn, assignments, if_pos hlt, hone]
      · have hskip : skipZeros (c.mem b) stop q = q := by
          rw [skipZeros, hhead, hn, List.take_succ_cons,
            List.takeWhile_cons_of_neg (by simpa using ha)]
          rfl
        exact ⟨stop - q, by omega, by rw [hskip]⟩
  · have hskip : skipZeros (c.mem b) stop q = q := by
      rw [skipZeros, show stop - q = 0 by omega]
      rfl
    exact ⟨stop - q, by omega, by rw [hskip]⟩

/-- The memory of a query, with no table. -/
structure Holding (c : Cgi) (b : Buffer) (pos : ℕ) (query : CStr) (rest : List UInt8) : Prop where
  mem : ∃ pre, pre.length = pos ∧ c.mem b = pre ++ query.stored ++ rest
  htab : c.htab = none

theorem Holding.text {pos : ℕ} {query : CStr} (h : Holding c b pos query rest) :
    c.text ⟨b, pos⟩ = query := by
  obtain ⟨pre, hpre, hmem⟩ := h.mem
  rw [Cgi.text]
  dsimp only
  rw [hmem, List.append_assoc, List.drop_left' hpre, CStr.read_stored_append]

/-- A query is cut into its pieces. -/
theorem Holding.opened (hL : L.Roomy) {pos : ℕ} {query : CStr} (h : Holding c b pos query rest) :
    AtPieces b (pos + query.len) 0 (pieces query) rest (openCgi L ⟨b, pos⟩ c) pos ∧
      getCgi L (openCgi L ⟨b, pos⟩ c) = fun _ => none := by
  obtain ⟨pre, rfl, hmem⟩ := h.mem
  have hopen := openCgi_mem (L := L) h.text hmem
  rw [cutSeparators_pieces, List.append_assoc] at hopen
  have hlen := congrArg List.length (cutSeparators_pieces query)
  rw [List.length_append, cutSeparators_length, List.length_singleton] at hlen
  have htable := openCgi_htab (L := L) ⟨b, pre.length⟩ c
  rw [h.htab, h.text] at htable
  refine ⟨⟨⟨pre, Nat.add_zero _, ?_⟩, ?_, _, htable, ?_, ?_⟩, ?_⟩
  · rw [hopen, List.replicate_zero, List.append_nil]
  · rw [← hlen]
    rfl
  · rw [Option.getD_none, length_pieces, List.length_nil, Nat.zero_add]
    exact Nat.le_trans (Nat.le_succ _) (hL _)
  · exact fun e he => absurd he List.not_mem_nil
  · funext name
    rw [getCgi_some htable]
    rfl

/-- The variables of a query whose pieces are whole are those of the pieces. -/
theorem initCgi_whole (hE : L.EmptyFails) (hR : L.Roomy) {pos : ℕ} {query : CStr}
    (h : Holding c b pos query rest) (hw : WholePieces L (pieces query) rest)
    (hnul : ∀ p ∈ pieces query, NulsLast L p) (junk : UInt8) :
    getCgi L (initCgi L junk (some ⟨b, pos⟩) c) =
      assignedAll L (fun _ => none) (pieces query) := by
  obtain ⟨hat, hnone⟩ := h.opened hR
  obtain ⟨n, hn, hstart⟩ := hat.start (L := L) (Nat.le_add_right _ _) junk
  rw [Nat.add_sub_cancel_left] at hstart
  rw [initCgi]
  dsimp only
  rw [← List.append_nil (pieces query)] at hat
  obtain ⟨c', q', k', n', hat', hget, -, hrun⟩ := hat.run_whole (L := L) hE hw
    (fun p hp => notMem_pieces hp) hnul junk hn
  rw [h.text, hstart, hrun, hat'.done, hget, hnone]

end

end EzpFirmware.Httpd
