import EzpFirmware.Httpd.QueryForms

/-! # Queries with any escapes

The first escape that is no number puts in whatever its variable held before,
and one with a single byte takes another from behind its piece. Either way the
value of its name is not the one that its piece has by itself.
-/
namespace EzpFirmware.Httpd
open Lib

section
variable {L : Libc} {ps qs : List (List UInt8)} {p : List UInt8} {query : CStr}

/-- The first piece whose escape is not whole. -/
theorem exists_of_not_first (h : firstEscapes L ps = false) :
    ∃ before p after s, ps = before ++ p :: after ∧
      (∀ rest, WholePieces L before (pieceMem (p :: after) ++ rest)) ∧
      behindPercent p = some s ∧
      (L.sscanf (CStr.read s) = none ∨ s.length < 2 ∧ after.head? ≠ some []) := by
  induction ps with
  | nil => cases h
  | cons p ps ih =>
    by_cases hp : ∀ s, behindPercent p = some s → (L.sscanf (CStr.read s)).isSome = true ∧
        (2 ≤ s.length ∨ ps.head? = some [])
    · have hps : firstEscapes L ps = false := by
        rw [Bool.eq_false_iff] at h ⊢
        exact fun hps => h (firstEscapes_cons.mpr ⟨hp, hps⟩)
      obtain ⟨before, p', after, s, rfl, hwhole, hs, hbad⟩ := ih hps
      refine ⟨p :: before, p', after, s, rfl, fun rest => ⟨fun s hs => ⟨(hp s hs).1, ?_⟩, hwhole rest⟩,
        hs, hbad⟩
      refine (hp s hs).2.imp id fun hhead => ?_
      cases before with
      | nil =>
        obtain rfl : p' = [] := Option.some.inj hhead
        rfl
      | cons q before =>
        obtain rfl : q = [] := Option.some.inj hhead
        rfl
    · push Not at hp
      obtain ⟨s, hs, hbad⟩ := hp
      refine ⟨[], p, ps, s, rfl, fun _ => trivial, hs, ?_⟩
      by_cases hnum : (L.sscanf (CStr.read s)).isSome = true
      · exact .inr ⟨(hbad hnum).1, (hbad hnum).2⟩
      · exact .inl (Option.not_isSome_iff_eq_none.mp hnum)

variable {b : Buffer} {stop k q : ℕ} {c : Cgi} {junk : UInt8} {s t : List UInt8} {z n : ℕ}

/-- What a piece that may run into others is assigned. -/
theorem AtPieces.merged_value (h : AtPieces b stop k (p :: ps) [] c q) (hpair : IsPair p)
    (h0 : (0 : UInt8) ∉ p) (hps : ∀ p ∈ ps, PairPiece L p) {qs : List (List UInt8)}
    (hm : Merged L (p ++ 0 :: pieceMem ps).length junk p ps t z qs)
    (hnames : ∀ p' ∈ ps, p' ≠ [] → nameOf p' ≠ nameOf p) (hjunk : junk ≠ 0)
    (hn : stop - skipZeros (c.mem b) stop (q - k) ≤ n) :
    ∃ value : CStr, t = nameOf p ++ KernelNvram.EQ :: value.val ∧
      getCgi L (assignments L junk b stop n (skipZeros (c.mem b) stop (q - k)) c)
        (CStr.read (nameOf p)) = some value := by
  have hfree : (0 : UInt8) ∉ nameOf p := fun hmem => (hpair.plain 0 hmem).1 rfl
  obtain ⟨n', hn', hround⟩ := @AtPieces.round L _ _ _ _ _ _ _ _ h hpair.ne_nil h0 junk _ hn
  obtain ⟨q', k', hnext, hat, hget⟩ := h.step_merged hm
  rw [hnext] at hn' hround
  obtain ⟨value, hval, hassigned⟩ := assigned_name hpair (t := ⟨t, hm.free⟩)
    (hm.name hpair (by rw [List.length_append]; omega)) (getCgi L c)
  refine ⟨value, hval, ?_⟩
  rw [hround, hat.run_other (fun p hp => hps p (hm.suffix.subset hp)) hjunk _ hn', hget, hassigned,
    Function.update_self]
  intro p' hp' hne
  rw [CStr.read_of_free hfree]
  exact hnames p' (hm.suffix.subset hp') hne

theorem notMem_plainFront (h0 : (0 : UInt8) ∉ p) (hnul : NulFree L p) : (0 : UInt8) ∉ plainFront p := by
  cases hs : behindPercent p with
  | none =>
    rw [← (@unescape_unescaped L _ [] _ h0 hs 1 le_rfl).2]
    exact hnul 1 (by decide)
  | some s =>
    have hfree := hnul 1 (by decide)
    rw [(unescape_first (L := L) h0 hs 1 le_rfl []).2.1, List.mem_append, not_or] at hfree
    exact hfree.1

/-- What the decoder puts for an escape that is no number depends on the unset variable. -/
theorem Merged.ne_unset {d e : UInt8} (hm : Merged L n d p ps t z qs) (h0 : (0 : UInt8) ∉ p)
    (hnul : NulFree L p) (hn : p.length ≤ n) (hs : behindPercent p = some s)
    (hnum : L.sscanf (CStr.read s) = none) (hd : d ≠ 0) (hne : d ≠ e) : t ≠ decode L e p := by
  obtain ⟨-, -, hrun⟩ := unescape_first (L := L) h0 hs d hn (pieceMem ps)
  obtain ⟨-, hdec, -⟩ := unescape_first (L := L) h0 hs e hn (pieceMem ps)
  rw [hnum, Option.getD_none, List.append_cons (plainFront p)] at hrun
  have hfree : (0 : UInt8) ∉ plainFront p ++ [d] := by
    rw [List.mem_append, List.mem_singleton, not_or]
    exact ⟨notMem_plainFront h0 hnul, Ne.symm hd⟩
  have hlead := hm.leads hrun hfree
  intro heq
  rw [heq, hdec, hnum, Option.getD_none, List.prefix_append_right_inj] at hlead
  exact hne (List.cons_prefix_cons.mp hlead).1

/-- What is taken from the next piece comes behind an escape that has one byte only. -/
theorem Merged.ne_next {d x a : UInt8} {p' : List UInt8} (hm : Merged L n d p (p' :: ps) t z qs)
    (h0 : (0 : UInt8) ∉ p) (hnul : NulFree L p) (hn : p.length < n)
    (hs : behindPercent p = some [x]) (hnum : L.sscanf (CStr.read [x]) = some a) (hd : d ≠ 0)
    (hp' : Begins p') (hne : p' ≠ []) : t ≠ decode L d p := by
  obtain ⟨f, g, r, rfl, hf, hg⟩ := hp'.resolve_left hne
  obtain ⟨hlen, hdec, hrun⟩ := unescape_first (L := L) h0 hs d hn.le (pieceMem ((f :: g :: r) :: ps))
  rw [hnum, Option.getD_some] at hrun hdec
  have hmove : strncpy ([x] ++ 0 :: pieceMem ((f :: g :: r) :: ps))
      (([x] ++ 0 :: pieceMem ((f :: g :: r) :: ps)).drop 2) ([x].length + 1) =
        f :: g :: pieceMem ((f :: g :: r) :: ps) :=
    move_two hf.1 hg.1 x (pieceMem ((f :: g :: r) :: ps)) _
  rw [List.length_singleton] at hlen
  obtain ⟨n', hn'⟩ := Nat.exists_eq_succ_of_ne_zero
    (show n - (plainFront p).length - 1 ≠ 0 by omega)
  rw [hmove, hn', unescape_plain hf.1 hf.2.1, if_neg hf.2.2, List.append_cons (plainFront p),
    List.append_cons (plainFront p ++ [a])] at hrun
  have ha : (0 : UInt8) ∉ decode L d p := hnul d hd
  rw [hdec, List.mem_append, List.mem_cons, not_or, not_or] at ha
  have hfree : (0 : UInt8) ∉ plainFront p ++ [a] ++ [f] := by
    rw [List.mem_append, List.mem_append, List.mem_singleton, List.mem_singleton, not_or, not_or]
    exact ⟨⟨ha.1, ha.2.1⟩, Ne.symm hf.1⟩
  have hlead := (hm.leads hrun hfree).length_le
  intro heq
  rw [heq, hdec] at hlead
  simp [decode] at hlead

/-- What an escape with one byte only takes from behind the query. -/
theorem AtPieces.last_value {x a : UInt8} (h : AtPieces b stop k [p] [1, 0] c q) (hpair : IsPair p)
    (h0 : (0 : UInt8) ∉ p) (hnul : NulFree L p) (hs : behindPercent p = some [x])
    (hnum : L.sscanf (CStr.read [x]) = some a)
    (hn : stop - skipZeros (c.mem b) stop (q - k) ≤ n) :
    ∃ value : CStr, plainFront p ++ [a, 1] = nameOf p ++ KernelNvram.EQ :: value.val ∧
      getCgi L (assignments L junk b stop n (skipZeros (c.mem b) stop (q - k)) c)
        (CStr.read (nameOf p)) = some value := by
  obtain ⟨hlen, hdec, hrun⟩ := unescape_first (L := L) h0 hs junk
    (n := (p ++ [0, 1, 0]).length) (by rw [List.length_append]; omega) [1, 0]
  have hmove : strncpy ([x] ++ 0 :: [1, 0]) (([x] ++ 0 :: [1, 0]).drop 2) ([x].length + 1) =
      1 :: 0 :: [1, 0] := rfl
  rw [List.length_singleton] at hlen
  have hfree : (0 : UInt8) ∉ plainFront p ++ [a, 1] := by
    have hdecoded := hnul 1 (by decide)
    rw [(unescape_first (L := L) h0 hs 1 le_rfl []).2.1, hnum, List.mem_append, List.mem_cons, not_or,
      not_or] at hdecoded
    simpa [notMem_plainFront h0 hnul] using hdecoded.2.1
  have hout : unescape L (p ++ [0, 1, 0]).length junk (p ++ [0, 1, 0]) =
      plainFront p ++ [a, 1] ++ 0 :: [1, 0] := by
    obtain ⟨n', hn'⟩ := Nat.exists_eq_succ_of_ne_zero
      (show (p ++ [0, 1, 0]).length - (plainFront p).length - 1 ≠ 0 by
        simp only [List.length_append, List.length_cons, List.length_nil]
        omega)
    rw [hrun, hnum, Option.getD_some, hmove, hn', unescape_plain (by decide) (by decide),
      if_neg (by decide), unescape_zero, List.append_assoc]
    rfl
  obtain ⟨y, hy⟩ := hpair.unescape (L := L) junk [0, 1, 0] (n := (p ++ [0, 1, 0]).length)
    (by rw [List.length_append]; omega)
  have hlead : nameOf p ++ [KernelNvram.EQ] <+: plainFront p ++ [a, 1] :=
    prefix_of_free (hout.symm.trans hy) fun hmem => (hpair.nameEq_plain 0 hmem).1 rfl
  obtain ⟨n', hn', hround⟩ := @AtPieces.round L _ _ _ _ _ _ _ _ h hpair.ne_nil h0 junk _ hn
  obtain ⟨hnext, hat, hget⟩ := @AtPieces.step L _ _ _ _ _ _ [] _ _
    ⟨plainFront p ++ [a, 1], hfree⟩ 0 h junk (by simpa [pieceMem] using hout) (by
      change (plainFront p ++ [a, 1]).length + 1 + 0 = p.length + 1 + 0
      simp only [List.length_append, List.length_cons, List.length_nil]
      omega) le_rfl
  obtain ⟨value, hval, hassigned⟩ := assigned_name hpair (t := ⟨plainFront p ++ [a, 1], hfree⟩)
    hlead (getCgi L c)
  have hdone := hat.done (L := L) junk n'
  rw [Nat.add_sub_cancel] at hdone
  exact ⟨value, hval, by rw [hround, hnext, hdone, hget, hassigned, Function.update_self]⟩

/-- The pieces of a query are pairs, or empty, with a name of its own for each. -/
structure PairQuery (L : Libc) (ps : List (List UInt8)) : Prop where
  pieces : ∀ p ∈ ps, PairPiece L p
  names : ((ps.filter (· ≠ [])).map nameOf).Nodup

theorem PairQuery.names_ne {before after : List (List UInt8)}
    (h : PairQuery L (before ++ p :: after)) (hp : p ≠ []) :
    ∀ p' ∈ before ++ after, p' ≠ [] → nameOf p' ≠ nameOf p := by
  have hnames := h.names
  rw [List.filter_append, List.filter_cons_of_pos (by simpa using hp), List.map_append,
    List.map_cons] at hnames
  have hnot := List.nodup_middle.mp hnames
  rw [List.nodup_cons, ← List.map_append, ← List.filter_append] at hnot
  intro p' hp' hne heq
  exact hnot.1 (List.mem_map.mpr ⟨p', List.mem_filter.mpr ⟨hp', by simpa using hne⟩, heq⟩)

/-- The memory that has a query, and other bytes behind it. -/
def queryMem (query : CStr) (rest : List UInt8) : Cgi := ⟨query.stored ++ rest, [], none⟩

theorem holding_queryMem (query : CStr) (rest : List UInt8) :
    Holding (queryMem query rest) .post 0 query rest := ⟨⟨[], rfl, rfl⟩, rfl⟩

/-- The loop comes to the first piece whose escape is not whole. -/
theorem initCgi_before (hE : L.EmptyFails) (hR : L.Roomy) {before after : List (List UInt8)}
    (hsplit : pieces query = before ++ p :: after) (rest : List UInt8)
    (hw : WholePieces L before (pieceMem (p :: after) ++ rest))
    (hnul : ∀ p ∈ pieces query, NulFree L p) (junk : UInt8) :
    ∃ c q k n, AtPieces .post (0 + query.len) k (p :: after) rest c q ∧
      0 + query.len - skipZeros (c.mem .post) (0 + query.len) (q - k) ≤ n ∧
      initCgi L junk (some start) (queryMem query rest) =
        assignments L junk .post (0 + query.len) n
          (skipZeros (c.mem .post) (0 + query.len) (q - k)) c := by
  have hholding := holding_queryMem query rest
  obtain ⟨hat, -⟩ := hholding.opened hR
  have hfree := fun p (hp : p ∈ pieces query) => notMem_pieces hp
  rw [hsplit] at hat hnul hfree
  obtain ⟨n, hn, hstart⟩ := hat.start (L := L) (Nat.le_add_right _ _) junk
  rw [Nat.add_sub_cancel_left] at hstart
  obtain ⟨c, q, k, n', hat', -, hn', hrun⟩ := hat.run_whole (L := L) hE hw
    (fun p hp => hfree p (List.mem_append_left _ hp))
    (fun p hp => (hnul p (List.mem_append_left _ hp)).last) junk hn
  refine ⟨c, q, k, n', hat', hn', ?_⟩
  rw [initCgi, start]
  dsimp only
  rw [hholding.text, hstart, hrun]

theorem formWith_pair (hR : L.Roomy) (h : p ∈ pieces query) (hp : IsPair p) (hnul : NulFree L p) :
    ∃ value : CStr, decode L 1 p = nameOf p ++ KernelNvram.EQ :: value.val ∧
      formWith L 1 p = Function.update (fun _ => none) (CStr.read (nameOf p)) (some value) := by
  have hlead : nameOf p ++ [KernelNvram.EQ] <+: decode L 1 p := by
    obtain ⟨v, hv⟩ := hp.split
    conv_rhs => rw [hv]
    rw [decode_plainBytes hp.nameEq_plain]
    exact List.prefix_append _ _
  obtain ⟨value, hval, hassigned⟩ := assigned_name hp
    (t := ⟨decode L 1 p, hnul 1 (by decide)⟩) hlead (fun _ => none)
  exact ⟨value, hval, by rw [formWith_any hR h hp.ne_nil hnul (by decide), hassigned]⟩

theorem formWith_nil (hE : L.EmptyFails) (hR : L.Roomy) (h : [] ∈ pieces query) (junk : UInt8)
    (name : CStr) : formWith L junk [] name = none := by
  rw [formWith_whole hE hR h (fun s hs => by cases hs)
    (NulFree.last fun c _ => List.not_mem_nil)]
  rfl

/-- A piece of a query of pairs gives what it gives by itself. -/
theorem DecodedAlone.value (hE : L.EmptyFails) (hR : L.Roomy) (h : DecodedAlone L query)
    {before after : List (List UInt8)} (hsplit : pieces query = before ++ p :: after)
    (hpairs : PairQuery L (pieces query)) (hp : IsPair p) (junk : UInt8) (rest : List UInt8)
    {value : CStr} (hvalue : getCgi L (initCgi L junk (some start) (queryMem query rest))
      (CStr.read (nameOf p)) = some value) :
    decode L 1 p = nameOf p ++ KernelNvram.EQ :: value.val := by
  have hget : (pieces query)[before.length]? = some p := by
    rw [hsplit, List.getElem?_append_right le_rfl, Nat.sub_self]
    rfl
  have hmem := List.mem_of_getElem? hget
  obtain ⟨value', hval, hform⟩ := formWith_pair hR hmem hp (hpairs.pieces p hmem).nul
  have hsome : formWith L 1 p (CStr.read (nameOf p)) = some value' := by
    rw [hform, Function.update_self]
  have halone := h junk 1 (queryMem query rest) .post 0 rest (holding_queryMem query rest)
    before.length p hget (CStr.read (nameOf p)) (by rw [hsome]; exact Option.some_ne_none _)
  have hsame := halone fun j p' hj hp' => by
    have hmem' := List.mem_of_getElem? hp'
    have hin : p' ∈ before ++ after := by
      rw [hsplit] at hp'
      rcases Nat.lt_or_gt_of_ne hj with hlt | hgt
      · rw [List.getElem?_append_left hlt] at hp'
        exact List.mem_append_left _ (List.mem_of_getElem? hp')
      · obtain ⟨d, hd⟩ : ∃ d, j - before.length = d + 1 := ⟨j - before.length - 1, by omega⟩
        rw [List.getElem?_append_right (by omega), hd, List.getElem?_cons_succ] at hp'
        exact List.mem_append_right _ (List.mem_of_getElem? hp')
    rcases (hpairs.pieces p' hmem').pair with rfl | hpair'
    · exact formWith_nil hE hR hmem' 1 _
    · obtain ⟨value'', -, hform'⟩ := formWith_pair hR hmem' hpair' (hpairs.pieces p' hmem').nul
      have hne := (hsplit ▸ hpairs).names_ne hp.ne_nil p' hin hpair'.ne_nil
      rw [hform', Function.update_of_ne]
      intro heq
      have hval' := congrArg Subtype.val heq
      rw [CStr.read_of_free fun hmem => (hp.plain 0 hmem).1 rfl,
        CStr.read_of_free fun hmem => (hpair'.plain 0 hmem).1 rfl] at hval'
      exact hne hval'.symm
  rw [hsome] at hsame
  obtain rfl : value = value' := Option.some.inj (hvalue.symm.trans hsame)
  exact hval

theorem first_of_decodedAlone (hE : L.EmptyFails) (hR : L.Roomy)
    (hpairs : PairQuery L (pieces query)) (h : DecodedAlone L query) :
    firstEscapes L (pieces query) = true := by
  by_contra hnot
  obtain ⟨before, p, after, s, hsplit, hwhole, hs, hbad⟩ :=
    exists_of_not_first (Bool.eq_false_iff.mpr hnot)
  have hmem : p ∈ pieces query := by
    rw [hsplit]
    exact List.mem_append_right _ List.mem_cons_self
  have hafter : ∀ p ∈ after, PairPiece L p := fun p' hp' => hpairs.pieces p' (by
    rw [hsplit]
    exact List.mem_append_right _ (List.mem_cons_of_mem p hp'))
  obtain ⟨hpair, h0, hnul⟩ := hpairs.pieces p hmem
  have hp : IsPair p := hpair.resolve_left fun hnil => by
    rw [hnil] at hs
    cases hs
  have hnames : ∀ p' ∈ after, p' ≠ [] → nameOf p' ≠ nameOf p := fun p' hp' =>
    (hsplit ▸ hpairs).names_ne hp.ne_nil p' (List.mem_append_right _ hp')
  have hnuls := fun p' hp' => (hpairs.pieces p' hp').nul
  have hlen : p.length < (p ++ 0 :: pieceMem after).length := by
    rw [List.length_append, List.length_cons]
    omega
  -- the value in the query, when nothing is behind it
  have hrun (junk : UInt8) (hjunk : junk ≠ 0) {t z qs}
      (hm : Merged L (p ++ 0 :: pieceMem after).length junk p after t z qs) :
      t = decode L 1 p := by
    obtain ⟨c, q, k, n, hat, hn, hinit⟩ := initCgi_before hE hR hsplit [] (hwhole []) hnuls junk
    obtain ⟨value, hval, hvalue⟩ := hat.merged_value hp h0 hafter hm hnames hjunk hn
    rw [← hinit] at hvalue
    rw [hval, h.value hE hR hsplit hpairs hp junk [] hvalue]
  by_cases hunset : L.sscanf (CStr.read s) = none
  · obtain ⟨t, z, qs, hm⟩ := (hpairs.pieces p hmem).merged hafter (show (2 : UInt8) ≠ 0 by decide)
    exact hm.ne_unset h0 hnul hlen.le hs hunset (by decide) (by decide)
      (hrun 2 (by decide) hm)
  · obtain ⟨hshort, hhead⟩ := hbad.resolve_left hunset
    obtain ⟨a, ha⟩ := Option.ne_none_iff_exists'.mp hunset
    rcases s with _ | ⟨x, s⟩
    · exact hunset hE
    obtain rfl : s = [] := List.length_eq_zero_iff.mp (by rw [List.length_cons] at hshort; omega)
    cases after with
    | nil =>
      obtain ⟨c, q, k, n, hat, hn, hinit⟩ :=
        initCgi_before hE hR hsplit [1, 0] (hwhole [1, 0]) hnuls 1
      obtain ⟨value, hval, hvalue⟩ := hat.last_value hp h0 hnul hs ha hn
      rw [← hinit] at hvalue
      have hown := h.value hE hR hsplit hpairs hp 1 [1, 0] hvalue
      rw [← hval, (unescape_first (L := L) h0 hs 1 le_rfl []).2.1, ha] at hown
      have hlens := congrArg List.length hown
      simp [decode] at hlens
    | cons p' after =>
      obtain ⟨t, z, qs, hm⟩ := (hpairs.pieces p hmem).merged hafter (show (1 : UInt8) ≠ 0 by decide)
      refine hm.ne_next h0 hnul hlen hs ha (by decide) (hafter p' List.mem_cons_self).begins ?_
        (hrun 1 (by decide) hm)
      rintro rfl
      exact hhead rfl

end

/-! ## Queries

A query of pairs is decoded piece by piece if and only if the first escape of
each piece is whole, and the values of percent-encoded pairs come back.
-/

section
variable {L : Libc} {query : CStr} {b : Buffer} {c : Cgi} {s : List UInt8}

/-! ## Encoded values -/

theorem Unescapes.decode (hL : L.ReadsHex) {t : List UInt8} (h : Unescapes s t) (c : UInt8) :
    decode L c s = t := by
  induction h generalizing c with
  | nil => rfl
  | plain h0 hp hpl _ ih => rw [decode_plain hp, if_neg hpl, ih]
  | plus _ ih => rw [decode_plain (by decide), if_pos rfl, ih]
  | @escape a b x y s t ha hb hne hs ih =>
    have hfree : (0 : UInt8) ∉ a :: b :: s := by
      simp [hs.source_plain, Ne.symm (hexDigit_ne_zero ha), Ne.symm (hexDigit_ne_zero hb)]
    rw [decode_percent, hL (CStr.read (a :: b :: s)) a b x y s
      (by rw [CStr.read_of_free hfree]) ha hb, Option.getD_some]
    exact congrArg ((x * 16 + y) :: ·) (ih _)

/-- Every escape of an encoded text is whole. -/
theorem Unescapes.first (hL : L.ReadsHex) {t r : List UInt8} (h : Unescapes s t)
    (hr : behindPercent s = some r) :
    (L.sscanf (CStr.read r)).isSome = true ∧ 2 ≤ r.length := by
  induction h with
  | nil => cases hr
  | plain h0 hp hpl _ ih => exact ih (behindPercent_cons hp _ ▸ hr)
  | plus _ ih => exact ih (behindPercent_cons (show PLUS ≠ PERCENT by decide) _ ▸ hr)
  | @escape a b x y s t ha hb hne hs ih =>
    rw [behindPercent, if_pos rfl] at hr
    obtain rfl := Option.some.inj hr
    have hfree : (0 : UInt8) ∉ a :: b :: s := by
      simp [hs.source_plain, Ne.symm (hexDigit_ne_zero ha), Ne.symm (hexDigit_ne_zero hb)]
    rw [hL (CStr.read (a :: b :: s)) a b x y s (by rw [CStr.read_of_free hfree]) ha hb]
    exact ⟨rfl, by simp⟩

/-- A name of bytes that stand for themselves, and a text that stands for a value. -/
structure EncodedPair where
  name : CStr
  text : List UInt8
  value : CStr
  plain : ∀ b ∈ name.val, PlainByte b ∧ b ≠ KernelNvram.EQ
  encoded : Unescapes text value.val

namespace EncodedPair

/-- The piece of a pair. -/
def piece (w : EncodedPair) : List UInt8 := w.name.val ++ KernelNvram.EQ :: w.text

variable {w : EncodedPair}

theorem unescapes (w : EncodedPair) :
    Unescapes w.piece (w.name.val ++ KernelNvram.EQ :: w.value.val) := by
  refine (Unescapes.of_plain fun b hb => (w.plain b hb).1).append ?_
  exact .plain (by decide) (by decide) (by decide) w.encoded

theorem nulFree (hL : L.ReadsHex) (w : EncodedPair) : NulFree L w.piece := fun c _ => by
  rw [w.unescapes.decode hL c]
  exact w.unescapes.target_plain

theorem assigned_decoded (hL : L.ReadsHex) (w : EncodedPair) (F : Form) :
    assigned F (decoded L w.piece) = Function.update F w.name (some w.value) := by
  have hEQ : KernelNvram.EQ ∉ w.name.val := fun hmem => (w.plain _ hmem).2 rfl
  have hglue : decoded L w.piece =
      CStr.glue KernelNvram.EQ KernelNvram.EQ_ne_zero w.name w.value := by
    rw [decoded, w.unescapes.decode hL 1, CStr.read_of_free w.unescapes.target_plain]
    rfl
  rw [assigned, hglue, CStr.cut_glue KernelNvram.EQ_ne_zero hEQ]

end EncodedPair

/-- The values of a list of pairs come back. -/
theorem encoded_values (hE : L.EmptyFails) (hR : L.Roomy) (hL : L.ReadsHex) {ws : List EncodedPair}
    (hws : pieces query = ws.map EncodedPair.piece) (hnames : (ws.map (·.name)).Nodup)
    {pos : ℕ} {rest : List UInt8} (h : Holding c b pos query rest) (junk : UInt8) :
    ∀ w ∈ ws, getCgi L (initCgi L junk (some ⟨b, pos⟩) c) w.name = some w.value := by
  intro w hw
  have hfirst : firstEscapes L (pieces query) = true := by
    rw [hws]
    generalize ws = ws
    induction ws with
    | nil => rfl
    | cons w ws ih =>
      refine firstEscapes_cons.mpr ⟨fun r hr => ?_, ih⟩
      exact (w.unescapes.first hL hr).imp id .inl
  have hnul : ∀ p ∈ pieces query, NulsLast L p := by
    rw [hws]
    exact List.forall_mem_map.mpr fun w _ => (w.nulFree hL).last
  obtain ⟨before, after, rfl⟩ := List.append_of_mem hw
  rw [initCgi_whole hE hR h (wholePieces_of_first hfirst rest) hnul junk, hws, List.map_append,
    List.map_cons]
  rw [List.map_append, List.map_cons, List.nodup_middle, List.nodup_cons] at hnames
  refine assignedAll_unique (by rw [w.assigned_decoded hL, Function.update_self]) fun p hp => ?_
  obtain ⟨w', hw', rfl⟩ := List.mem_map.mp hp
  rw [w'.assigned_decoded hL, Function.update_of_ne]
  exact fun heq => hnames.1 (List.mem_append_right _ (List.mem_map.mpr ⟨w', hw', heq.symm⟩))

/-- A query whose first escapes are whole is decoded piece by piece, so that other pieces change
nothing; of the queries that are lists of pairs, no others are. -/
theorem query_decoded_iff (L : Libc) (hE : L.EmptyFails) (hR : L.Roomy) (query : CStr) :
    (firstEscapes L (pieces query) = true → (∀ p ∈ pieces query, NulsLast L p) →
        DecodedAlone L query) ∧
      (PairQuery L (pieces query) →
        (DecodedAlone L query ↔ firstEscapes L (pieces query) = true)) ∧
      (L.ReadsHex → ∀ ws : List EncodedPair, pieces query = ws.map EncodedPair.piece →
        (ws.map (·.name)).Nodup → ∀ (junk : UInt8) (c : Cgi) (b : Buffer) (pos : ℕ)
          (rest : List UInt8), Holding c b pos query rest → ∀ w ∈ ws,
            getCgi L (initCgi L junk (some ⟨b, pos⟩) c) w.name = some w.value) := by
  refine ⟨decodedAlone_of_first hE hR, fun hpairs => ⟨first_of_decodedAlone hE hR hpairs,
    fun h => decodedAlone_of_first hE hR h fun p hp => (hpairs.pieces p hp).nul.last⟩, ?_⟩
  intro hL ws hws hnames junk c b pos rest h
  exact encoded_values hE hR hL hws hnames h junk

theorem libc_roomy : libc.Roomy := by
  intro nel
  have hleast : nel ≤ max nel 3 := le_max_left _ _
  change nel ≤ ((((List.range (max nel 3 + 1)).map (max nel 3 + ·)).find? isPrime).getD (max nel 3))
  cases hfind : ((List.range (max nel 3 + 1)).map (max nel 3 + ·)).find? isPrime with
  | none => exact hleast
  | some m =>
    obtain ⟨d, -, rfl⟩ := List.mem_map.mp (List.mem_of_find?_eq_some hfind)
    exact hleast.trans (Nat.le_add_right _ _)

theorem query_decoded_letter : DecodedAlone libc (.ofString "a=%41&&b=x%00") := by
  have hpieces : pieces (.ofString "a=%41&&b=x%00") =
      [[0x61, 0x3d, 0x25, 0x34, 0x31], [], [0x62, 0x3d, 0x78, 0x25, 0x30, 0x30]] := by decide
  refine (query_decoded_iff libc libc_emptyFails libc_roomy _).1 (by decide) ?_
  rw [hpieces]
  have hnumber : ∀ s, behindPercent [0x61, 0x3d, 0x25, 0x34, 0x31] = some s →
      (libc.sscanf (CStr.read s)).isSome = true := by
    intro s hs
    obtain rfl : [0x34, 0x31] = s := Option.some.inj hs
    decide
  have hnul : ∀ s, behindPercent [0x62, 0x3d, 0x78, 0x25, 0x30, 0x30] = some s →
      (libc.sscanf (CStr.read s)).isSome = true := by
    intro s hs
    obtain rfl : [0x30, 0x30] = s := Option.some.inj hs
    decide
  simp only [List.forall_mem_cons]
  refine ⟨NulFree.last fun c _ => ?_, NulFree.last fun c _ => List.not_mem_nil, fun c _ => ?_,
    fun p hp => ?_⟩
  · rw [decode_congr (by decide) hnumber c 1]
    decide
  · rw [decode_congr (by decide) hnul c 1]
    exact ⟨.ofString "b=x", 1, by decide⟩
  · cases hp

/-- The digit behind the percent sign is the last byte of its piece: the next piece is lost. -/
theorem query_merged : ¬ DecodedAlone libc (.ofString "a=%4&b=1") := by
  intro h
  have hpieces : pieces (.ofString "a=%4&b=1") = [[0x61, 0x3d, 0x25, 0x34], [0x62, 0x3d, 0x31]] := by
    decide
  have hb := h 0 0 (alone (.ofString "a=%4&b=1")) .post 0 [] (holding_alone _) 1 [0x62, 0x3d, 0x31]
    (by decide) (.ofString "b") (by decide +kernel) fun j p hj hp => by
      rw [hpieces] at hp
      obtain rfl : j = 0 := by
        have hlt := (List.getElem?_eq_some_iff.mp hp).1
        simp only [List.length_cons, List.length_nil] at hlt
        omega
      obtain rfl : [0x61, 0x3d, 0x25, 0x34] = p := Option.some.inj hp
      decide +kernel
  exact absurd hb (by decide +kernel)

end

end EzpFirmware.Httpd
