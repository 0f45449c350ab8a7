import EzpFirmware.Httpd.PieceRuns

/-! # Pieces that run into the next one

An escape with a digit and nothing behind it in its piece moves the first bytes
of the next piece over the separator, so that the next piece is decoded as the
end of this one. The decoder still stops in front of a piece, or behind the last.
-/
namespace EzpFirmware.Httpd
open Lib

/-- A byte that stands for itself. -/
def PlainByte (b : UInt8) : Prop := b ≠ 0 ∧ b ≠ PERCENT ∧ b ≠ PLUS

section
variable {L : Libc} {c : UInt8} {n : ℕ}

theorem decode_plainByte {a : UInt8} (ha : PlainByte a) (c : UInt8) (s : List UInt8) :
    decode L c (a :: s) = a :: decode L c s := by
  rw [decode_plain ha.2.1, if_neg ha.2.2]

/-- A piece that is empty or starts with two plain bytes. -/
def Begins (p : List UInt8) : Prop :=
  p = [] ∨ ∃ a b s, p = a :: b :: s ∧ PlainByte a ∧ PlainByte b

/-- What a piece and those behind it are decoded to together. -/
structure Merged (L : Libc) (n : ℕ) (c : UInt8) (w : List UInt8) (ps : List (List UInt8))
    (t : List UInt8) (z : ℕ) (ps' : List (List UInt8)) : Prop where
  run : unescape L n c (w ++ 0 :: pieceMem ps) = t ++ List.replicate (z + 1) 0 ++ pieceMem ps'
  free : (0 : UInt8) ∉ t
  suffix : ps' <:+ ps
  length : t.length + (z + 1) + (pieceMem ps').length = w.length + 1 + (pieceMem ps).length

variable {w s t : List UInt8} {ps ps' : List (List UInt8)} {z : ℕ}

theorem Merged.of_apart (h0 : (0 : UInt8) ∉ w) (hnul : NulFree L w) (hc : c ≠ 0)
    (hn : w.length ≤ n) (hroom : ∀ s, behindPercent w = some s →
      (CStr.read ((s ++ 0 :: pieceMem ps).drop 2)).val = s.drop 2) :
    ∃ z, Merged L n c w ps (decode L c w) z ps := by
  obtain ⟨z, hrun, hlen⟩ := unescape_apart (L := L) h0 c hn hroom
  exact ⟨z, hrun, hnul c hc, List.suffix_rfl, by rw [hlen]⟩

/-- More of the next pieces behind the first escape. -/
theorem Merged.behind {x : List UInt8} (h0 : (0 : UInt8) ∉ w) (hnul : NulFree L w) (hc : c ≠ 0)
    (hn : w.length ≤ n) (hs : behindPercent w = some s)
    (hmove : strncpy (s ++ 0 :: pieceMem ps) ((s ++ 0 :: pieceMem ps).drop 2) (s.length + 1) = x)
    {t : List UInt8} {qs : List (List UInt8)} (hqs : qs <:+ ps)
    (hrun : unescape L (n - (plainFront w).length - 1) ((L.sscanf (CStr.read s)).getD c) x =
      t ++ List.replicate (z + 1) 0 ++ pieceMem ps')
    (ht : (0 : UInt8) ∉ t) (hps : ps' <:+ qs)
    (hlen : t.length + (z + 1) + (pieceMem ps').length = s.length + 1 + (pieceMem ps).length) :
    Merged L n c w ps (plainFront w ++ (L.sscanf (CStr.read s)).getD c :: t) z ps' := by
  obtain ⟨hwlen, hdec, hfirst⟩ := unescape_first (L := L) h0 hs c hn (pieceMem ps)
  have hfree := hnul c hc
  rw [hdec, List.mem_append, List.mem_cons, not_or, not_or] at hfree
  refine ⟨?_, ?_, hps.trans hqs, ?_⟩
  · rw [hfirst, hmove, hrun]
    simp only [List.append_assoc, List.cons_append]
  · rw [List.mem_append, List.mem_cons, not_or, not_or]
    exact ⟨hfree.1, hfree.2.1, ht⟩
  · rw [List.length_append, List.length_cons, hwlen]
    omega

/-- The separator is written over with the second byte of the next piece. -/
theorem move_one {b : UInt8} (hb : b ≠ 0) (m x : List UInt8) :
    strncpy (0 :: m) (b :: x) 1 = b :: m := by
  simp [strncpy, CStr.read, hb]

/-- A digit and the separator are written over with the first bytes of the next piece. -/
theorem move_two {a b : UInt8} (ha : a ≠ 0) (hb : b ≠ 0) (d : UInt8) (m x : List UInt8) :
    strncpy (d :: 0 :: m) (a :: b :: x) 2 = a :: b :: m := by
  simp [strncpy, CStr.read, ha, hb]

theorem NulFree.prepend {a : UInt8} (h : NulFree L w) (ha : PlainByte a) : NulFree L (a :: w) := by
  intro c hc
  rw [decode_plainByte ha, List.mem_cons, not_or]
  exact ⟨Ne.symm ha.1, h c hc⟩

section
variable {p u : List UInt8}

/-- The next piece is decoded behind some bytes of its own. -/
theorem Merged.into (h0 : (0 : UInt8) ∉ w) (hnul : NulFree L w) (hc : c ≠ 0) (hn : w.length ≤ n)
    (hs : behindPercent w = some s)
    (hmove : strncpy (s ++ 0 :: pieceMem (p :: ps)) ((s ++ 0 :: pieceMem (p :: ps)).drop 2)
      (s.length + 1) = u ++ p ++ 0 :: pieceMem ps) (hu : u.length = s.length + 1)
    (h : Merged L (n - (plainFront w).length - 1) ((L.sscanf (CStr.read s)).getD c) (u ++ p) ps t z
      ps') :
    Merged L n c w (p :: ps) (plainFront w ++ (L.sscanf (CStr.read s)).getD c :: t) z ps' := by
  refine Merged.behind h0 hnul hc hn hs hmove (List.suffix_cons p ps) h.run h.free h.suffix ?_
  have hlen := h.length
  rw [List.length_append, hu] at hlen
  rw [pieceMem_cons, List.length_append, List.length_cons]
  omega

/-- Behind an empty piece there may be one more byte to take. -/
theorem Merged.over_empty (h0 : (0 : UInt8) ∉ w) (hnul : NulFree L w) (hc : c ≠ 0)
    (hn : w.length < n) (hs : behindPercent w = some []) (hps : ∀ p ∈ ps, Begins p)
    (hmet : (CStr.read (pieceMem ps)).val ≠ []) :
    ∃ t z ps', Merged L n c w ([] :: ps) t z ps' := by
  cases ps with
  | nil => exact absurd rfl hmet
  | cons p ps =>
    rcases hps p List.mem_cons_self with rfl | ⟨a, b, r, rfl, ha, -⟩
    · exact absurd rfl hmet
    · obtain ⟨hwlen, -, -⟩ := unescape_first (L := L) h0 hs c hn.le []
      rw [List.length_nil] at hwlen
      have hmove : strncpy (0 :: pieceMem ([] :: (a :: b :: r) :: ps))
          (pieceMem ((a :: b :: r) :: ps)) 1 = a :: 0 :: pieceMem ((a :: b :: r) :: ps) :=
        move_one ha.1 (0 :: pieceMem ((a :: b :: r) :: ps)) _
      obtain ⟨k, hk⟩ := Nat.exists_eq_succ_of_ne_zero
        (show n - (plainFront w).length - 1 ≠ 0 by omega)
      refine ⟨_, 0, _, Merged.behind h0 hnul hc hn.le hs hmove (t := [a]) (List.suffix_cons _ _) ?_ ?_
        List.suffix_rfl ?_⟩
      · rw [hk, unescape_plain ha.1 ha.2.1, if_neg ha.2.2, unescape_zero]
        rfl
      · simpa using Ne.symm ha.1
      · rw [pieceMem_cons []]
        simp only [List.length_append, List.length_cons, List.length_nil]
        omega

theorem apart_end (hs0 : (0 : UInt8) ∉ s) :
    (CStr.read ((s ++ 0 :: pieceMem []).drop 2)).val = s.drop 2 := by
  rcases s with _ | ⟨x, _ | ⟨y, s⟩⟩
  · rfl
  · rfl
  · exact read_drop_long hs0 (by simp) _

end

/-- Whatever a piece is, the decoder stops in front of a piece. -/
theorem merged (hps : ∀ p ∈ ps, Begins p ∧ (0 : UInt8) ∉ p ∧ NulFree L p) (h0 : (0 : UInt8) ∉ w)
    (hnul : NulFree L w) (hc : c ≠ 0) (hn : (w ++ 0 :: pieceMem ps).length ≤ n) :
    ∃ t z ps', Merged L n c w ps t z ps' := by
  induction ps generalizing w c n with
  | nil =>
    rw [List.length_append] at hn
    obtain ⟨z, h⟩ := @Merged.of_apart L _ n _ [] h0 hnul hc (by omega)
      fun s hs => apart_end fun hmem => h0 ((behindPercent_suffix hs).subset hmem)
    exact ⟨_, z, [], h⟩
  | cons p ps ih =>
    have hrest := fun p hp => hps p (List.mem_cons_of_mem _ hp)
    obtain ⟨hbegins, hp0, hpnul⟩ := hps p List.mem_cons_self
    rw [List.length_append, List.length_cons] at hn
    by_cases hroom : ∀ s, behindPercent w = some s →
        (CStr.read ((s ++ 0 :: pieceMem (p :: ps)).drop 2)).val = s.drop 2
    · obtain ⟨z, h⟩ := Merged.of_apart (L := L) h0 hnul hc (n := n) (by omega) hroom
      exact ⟨_, z, _, h⟩
    · push Not at hroom
      obtain ⟨s, hs, hmet⟩ := hroom
      have hs0 : (0 : UInt8) ∉ s := fun hmem => h0 ((behindPercent_suffix hs).subset hmem)
      obtain ⟨hwlen, hdec, -⟩ := unescape_first (L := L) h0 hs c (n := n) (by omega)
        (pieceMem (p :: ps))
      have hc' : (L.sscanf (CStr.read s)).getD c ≠ 0 := fun hzero =>
        hnul c hc (by rw [hdec, hzero]; simp)
      have hlen := congrArg List.length (pieceMem_cons p ps)
      rw [List.length_append, List.length_cons] at hlen
      -- two bytes of its own piece would keep the escape away from the next one
      have hshort : s.length < 2 := by
        by_contra hlong
        exact hmet (read_drop_long hs0 (by omega) _)
      rcases hbegins with rfl | ⟨a, b, r, rfl, ha, hb⟩
      · rcases s with _ | ⟨x, s⟩
        · exact Merged.over_empty h0 hnul hc (by omega) hs (fun p hp => (hrest p hp).1) hmet
        · obtain rfl : s = [] := List.length_eq_zero_iff.mp (by rw [List.length_cons] at hshort; omega)
          exact absurd rfl hmet
      · rcases s with _ | ⟨x, s⟩
        · obtain ⟨t, z, ps', h⟩ := ih hrest (w := b :: a :: b :: r)
            (List.not_mem_cons_of_ne_of_not_mem (Ne.symm hb.1) hp0) (hpnul.prepend hb) hc'
            (n := n - (plainFront w).length - 1) (by
              simp only [List.length_append, List.length_cons, List.length_nil] at hlen hwlen ⊢
              omega)
          have hmove : strncpy (0 :: pieceMem ((a :: b :: r) :: ps))
              ((0 :: pieceMem ((a :: b :: r) :: ps)).drop 2) 1 =
                [b] ++ (a :: b :: r) ++ 0 :: pieceMem ps := by
            rw [pieceMem_cons]
            exact move_one hb.1 (a :: b :: (r ++ 0 :: pieceMem ps)) _
          exact ⟨_, z, ps', Merged.into h0 hnul hc (by omega) hs hmove rfl h⟩
        · obtain rfl : s = [] := List.length_eq_zero_iff.mp (by rw [List.length_cons] at hshort; omega)
          obtain ⟨t, z, ps', h⟩ := ih hrest (w := a :: b :: a :: b :: r)
            (List.not_mem_cons_of_ne_of_not_mem (Ne.symm ha.1)
              (List.not_mem_cons_of_ne_of_not_mem (Ne.symm hb.1) hp0))
            ((hpnul.prepend hb).prepend ha) hc' (n := n - (plainFront w).length - 1) (by
              simp only [List.length_append, List.length_cons, List.length_nil] at hlen hwlen ⊢
              omega)
          have hmove : strncpy (x :: 0 :: pieceMem ((a :: b :: r) :: ps))
              ((x :: 0 :: pieceMem ((a :: b :: r) :: ps)).drop 2) 2 =
                [a, b] ++ (a :: b :: r) ++ 0 :: pieceMem ps := by
            rw [pieceMem_cons]
            exact move_two ha.1 hb.1 x (a :: b :: (r ++ 0 :: pieceMem ps)) _
          exact ⟨_, z, ps', Merged.into h0 hnul hc (by omega) hs hmove rfl h⟩

/-- A text without zeros does not go on behind a zero. -/
theorem prefix_of_free {u x t y : List UInt8} (h : t ++ 0 :: y = u ++ x) (hu : (0 : UInt8) ∉ u) :
    u <+: t := by
  have hboth : u <+: t ++ 0 :: y := ⟨x, h.symm⟩
  by_cases hlen : u.length ≤ t.length
  · exact List.prefix_of_prefix_length_le hboth (List.prefix_append _ _) hlen
  · have hlong : t ++ [0] <+: t ++ 0 :: y := ⟨y, by rw [List.append_assoc]; rfl⟩
    have hzero := List.prefix_of_prefix_length_le hlong hboth (by
      rw [List.length_append, List.length_singleton]
      omega)
    exact absurd (hzero.subset (by simp)) hu

theorem Merged.leads {u x : List UInt8} (h : Merged L n c w ps t z ps')
    (hrun : unescape L n c (w ++ 0 :: pieceMem ps) = u ++ x) (hu : (0 : UInt8) ∉ u) : u <+: t := by
  refine prefix_of_free (y := List.replicate z 0 ++ pieceMem ps') (x := x) ?_ hu
  rw [← hrun, h.run, List.replicate_succ, List.append_assoc]
  rfl

/-! ## Pairs -/

/-- What is in front of the first `=` of a piece. -/
def nameOf (p : List UInt8) : List UInt8 := p.takeWhile (· ≠ KernelNvram.EQ)

/-- A name of bytes that stand for themselves, and a value. -/
structure IsPair (p : List UInt8) : Prop where
  eq : KernelNvram.EQ ∈ p
  ne : nameOf p ≠ []
  plain : ∀ b ∈ nameOf p, PlainByte b

theorem eq_plainByte : PlainByte KernelNvram.EQ := by
  unfold PlainByte
  decide

theorem IsPair.ne_nil {p : List UInt8} (h : IsPair p) : p ≠ [] := fun hnil => by
  have heq := h.eq
  rw [hnil] at heq
  cases heq

theorem IsPair.split {p : List UInt8} (h : IsPair p) :
    ∃ v, p = nameOf p ++ [KernelNvram.EQ] ++ v := by
  have hdrop : p.dropWhile (· ≠ KernelNvram.EQ) ≠ [] := by
    intro hnil
    have hall := List.dropWhile_eq_nil_iff.mp hnil KernelNvram.EQ h.eq
    simp at hall
  obtain ⟨a, v, hav⟩ := List.exists_cons_of_ne_nil hdrop
  have ha : a = KernelNvram.EQ := by
    have hhead := List.head_dropWhile_not (· ≠ KernelNvram.EQ) hdrop
    simp only [hav, List.head_cons] at hhead
    simpa using hhead
  refine ⟨v, ?_⟩
  conv_lhs => rw [← List.takeWhile_append_dropWhile (p := (· ≠ KernelNvram.EQ)) (l := p), hav, ha]
  rw [nameOf, List.append_assoc]
  rfl

theorem IsPair.begins {p : List UInt8} (h : IsPair p) : Begins p := by
  obtain ⟨v, hv⟩ := h.split
  obtain ⟨a, r, hname⟩ := List.exists_cons_of_ne_nil h.ne
  have hplain := h.plain
  rw [hname] at hv hplain
  refine .inr ?_
  cases r with
  | nil => exact ⟨a, _, v, hv, hplain a List.mem_cons_self, eq_plainByte⟩
  | cons b r =>
    exact ⟨a, b, r ++ [KernelNvram.EQ] ++ v, hv, hplain a List.mem_cons_self,
      hplain b (List.mem_cons_of_mem a List.mem_cons_self)⟩

theorem unescape_plainBytes {u : List UInt8} (hu : ∀ b ∈ u, PlainByte b) (c : UInt8)
    (x : List UInt8) {n : ℕ} (hn : u.length ≤ n) :
    unescape L n c (u ++ x) = u ++ unescape L (n - u.length) c x := by
  induction u generalizing n with
  | nil => rfl
  | cons a u ih =>
    rw [List.length_cons] at hn
    obtain ⟨n, rfl⟩ := Nat.exists_eq_succ_of_ne_zero (show n ≠ 0 by omega)
    obtain ⟨h0, hp, hpl⟩ := hu a List.mem_cons_self
    rw [List.cons_append, unescape_plain h0 hp, if_neg hpl,
      ih (fun b hb => hu b (List.mem_cons_of_mem a hb)) (by omega), List.length_cons,
      Nat.succ_sub_succ]
    rfl

theorem decode_plainBytes {u : List UInt8} (hu : ∀ b ∈ u, PlainByte b) (c : UInt8)
    (x : List UInt8) : decode L c (u ++ x) = u ++ decode L c x := by
  induction u with
  | nil => rfl
  | cons a u ih =>
    rw [List.cons_append, decode_plainByte (hu a List.mem_cons_self),
      ih fun b hb => hu b (List.mem_cons_of_mem a hb)]
    rfl

theorem IsPair.nameEq_plain {p : List UInt8} (h : IsPair p) :
    ∀ b ∈ nameOf p ++ [KernelNvram.EQ], PlainByte b := by
  intro b hb
  rcases List.mem_append.mp hb with hb | hb
  · exact h.plain b hb
  · exact List.mem_singleton.mp hb ▸ eq_plainByte

/-- A text that starts with a name and `=` is assigned to that name. -/
theorem assigned_name {p : List UInt8} (h : IsPair p) {t : CStr}
    (ht : nameOf p ++ [KernelNvram.EQ] <+: t.val) (F : Form) :
    ∃ value : CStr, t.val = nameOf p ++ KernelNvram.EQ :: value.val ∧
      assigned F t = Function.update F (CStr.read (nameOf p)) (some value) := by
  obtain ⟨r, hr⟩ := ht
  rw [List.append_assoc] at hr
  have hfree : (0 : UInt8) ∉ nameOf p := fun hmem => (h.plain 0 hmem).1 rfl
  have hrfree : (0 : UInt8) ∉ r := fun hmem => t.property (by
    rw [← hr]
    exact List.mem_append_right _ (List.mem_append_right _ hmem))
  have hEQ : KernelNvram.EQ ∉ (CStr.read (nameOf p)).val := by
    rw [CStr.read_of_free hfree]
    intro hmem
    simpa using List.mem_takeWhile_imp hmem
  refine ⟨⟨r, hrfree⟩, hr.symm, ?_⟩
  have hglue : t = CStr.glue KernelNvram.EQ KernelNvram.EQ_ne_zero (CStr.read (nameOf p))
      ⟨r, hrfree⟩ := by
    refine Subtype.ext ?_
    rw [CStr.glue, CStr.read_of_free hfree]
    exact hr.symm
  rw [assigned, hglue, CStr.cut_glue KernelNvram.EQ_ne_zero hEQ]

end

section
variable {L : Libc} {b : Buffer} {stop k q : ℕ} {p t rest : List UInt8} {ps ps' : List (List UInt8)}
  {c : Cgi} {junk : UInt8} {z : ℕ}

/-- A round of the loop over pieces that may run into one another. -/
theorem AtPieces.step_merged (h : AtPieces b stop k (p :: ps) [] c q)
    (hm : Merged L (p ++ 0 :: pieceMem ps).length junk p ps t z ps') :
    ∃ q' k', (assignCgi L junk b stop q c).1 =
        skipZeros ((assignCgi L junk b stop q c).2.mem b) stop (q' - k') ∧
      AtPieces b stop k' ps' [] (assignCgi L junk b stop q c).2 q' ∧
      getCgi L (assignCgi L junk b stop q c).2 = assigned (getCgi L c) ⟨t, hm.free⟩ := by
  obtain ⟨hnext, hat, hget⟩ := @AtPieces.step L _ _ _ _ _ _ ps' _ _ ⟨t, hm.free⟩ z h
    junk (by simpa only [List.append_nil] using hm.run) hm.length hm.suffix.length_le
  exact ⟨_, _, by rw [hnext, Nat.add_sub_cancel], hat, hget⟩

/-- The pieces of a query of pairs. -/
structure PairPiece (L : Libc) (p : List UInt8) : Prop where
  pair : p = [] ∨ IsPair p
  free : (0 : UInt8) ∉ p
  nul : NulFree L p

theorem PairPiece.begins (h : PairPiece L p) : Begins p := h.pair.elim .inl IsPair.begins

theorem PairPiece.merged (h : PairPiece L p) (hps : ∀ p ∈ ps, PairPiece L p) (hjunk : junk ≠ 0) :
    ∃ t z ps', Merged L (p ++ 0 :: pieceMem ps).length junk p ps t z ps' :=
  Httpd.merged (fun p hp => ⟨(hps p hp).begins, (hps p hp).free, (hps p hp).nul⟩) h.free h.nul hjunk
    le_rfl

/-- What is decoded starts with the name of the piece. -/
theorem IsPair.unescape (hp : IsPair p) (d : UInt8) (y : List UInt8) {n : ℕ} (hn : p.length ≤ n) :
    ∃ x, Httpd.unescape L n d (p ++ y) = nameOf p ++ [KernelNvram.EQ] ++ x := by
  obtain ⟨v, hv⟩ := hp.split
  have hlen := congrArg List.length hv
  rw [List.length_append] at hlen
  refine ⟨Httpd.unescape L (n - (nameOf p ++ [KernelNvram.EQ]).length) d (v ++ y), ?_⟩
  conv_lhs => rw [hv]
  rw [List.append_assoc, unescape_plainBytes hp.nameEq_plain d _ (by omega)]

theorem Merged.name {n : ℕ} {d : UInt8} (hp : IsPair p) (h : Merged L n d p ps t z ps')
    (hn : p.length ≤ n) : nameOf p ++ [KernelNvram.EQ] <+: t := by
  obtain ⟨x, hx⟩ := hp.unescape (L := L) d (0 :: pieceMem ps) hn
  exact h.leads hx fun hmem => (hp.nameEq_plain 0 hmem).1 rfl

/-- No later piece is assigned to a name that is not its own. -/
theorem AtPieces.run_other (h : AtPieces b stop k ps [] c q) (hps : ∀ p ∈ ps, PairPiece L p)
    (hjunk : junk ≠ 0) {name : CStr} (hname : ∀ p ∈ ps, p ≠ [] → nameOf p ≠ name.val) {n : ℕ}
    (hn : stop - skipZeros (c.mem b) stop (q - k) ≤ n) :
    getCgi L (assignments L junk b stop n (skipZeros (c.mem b) stop (q - k)) c) name =
      getCgi L c name := by
  induction hlen : ps.length using Nat.strong_induction_on generalizing ps c q k n with
  | _ m ih =>
    cases ps with
    | nil => rw [h.done]
    | cons p ps =>
      have hps' := fun p hp => hps p (List.mem_cons_of_mem _ hp)
      have hname' := fun p hp => hname p (List.mem_cons_of_mem _ hp)
      rw [List.length_cons] at hlen
      rcases (hps p List.mem_cons_self).pair with rfl | hp
      · have hsame : q + 1 - (k + 1) = q - k := by omega
        have hrun := ih ps.length (by omega) h.empty hps' hname' (n := n)
          (by rw [hsame]; exact hn) rfl
        rw [hsame] at hrun
        exact hrun
      · have hne : p ≠ [] := hp.ne_nil
        obtain ⟨t, z, ps', hm⟩ := (hps p List.mem_cons_self).merged hps' hjunk
        obtain ⟨n', hn', hround⟩ := @AtPieces.round L _ _ _ _ _ _ _ _ h hne
          (hps p List.mem_cons_self).free junk _ hn
        obtain ⟨q', k', hnext, hat, hget⟩ := h.step_merged hm
        rw [hnext] at hn' hround
        have hsub : ∀ p ∈ ps', p ∈ ps := fun p hp => hm.suffix.subset hp
        obtain ⟨value, -, hassigned⟩ := assigned_name hp (t := ⟨t, hm.free⟩)
          (hm.name hp (by rw [List.length_append]; omega)) (getCgi L c)
        have hother : name ≠ CStr.read (nameOf p) := fun heq => by
          refine hname p List.mem_cons_self hne ?_
          rw [heq, CStr.read_of_free fun hmem => (hp.plain 0 hmem).1 rfl]
        rw [hround, ih ps'.length (by have hle := hm.suffix.length_le; omega) hat
          (fun p hp => hps' p (hsub p hp)) (fun p hp => hname' p (hsub p hp)) hn' rfl, hget,
          hassigned, Function.update_of_ne hother]

end

end EzpFirmware.Httpd
