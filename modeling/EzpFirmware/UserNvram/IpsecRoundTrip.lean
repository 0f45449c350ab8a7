import EzpFirmware.UserNvram.IpsecConversion

/-! # The tunnels of release 1.7.5, there and back

The way back reads algorithms under names that stand at other positions in the release that runs. It
does not find them, and sets every flag of a group, or none.
-/
namespace EzpFirmware.UserNvram
open Lib

/-- Flags of which one is set. -/
def OneFlag (flags : List CStr) : Prop :=
  (∀ f ∈ flags, f = .ofString "0" ∨ f = .ofString "1") ∧ flags.count (.ofString "1") = 1

instance (flags : List CStr) : Decidable (OneFlag flags) :=
  inferInstanceAs (Decidable (_ ∧ _))

/-- A rule of the older release with one algorithm in each group. -/
structure Tunnel175 (r : CStr) : Prop extends Rule175 r where
  auth1 : OneFlag (subrule r 13 14)
  encrypt1 : OneFlag (subrule r 15 17)
  auth2 : OneFlag (subrule r 19 20)
  encrypt2 : OneFlag (subrule r 21 23)
  pfs : (attrAt r 26).len ≤ 1

/-- The fields of all rules except `pfs`. -/
def exceptPfs (value : Option CStr) : List (List CStr) :=
  (rulesOf value).map fun r => (r.fields ATTR_SEP).eraseIdx 26

/-- The way to the newer release and back gives these fields back. -/
def RestoresTunnels (u : Unspecified) (new new' : List UInt8) (M : Variables) : Prop :=
  ∃ M' M'', runOn (fwFunc175To176 u new) M = (.ok (), M') ∧
    runOn (fwFunc176To175 u new') M' = (.ok (), M'') ∧
      exceptPfs (M'' IPSEC_RULE) = exceptPfs (M IPSEC_RULE)

/-- The tunnel that the way back makes. -/
def ipsecDown (y : CStr) : CStr := converted downPieces y

section
variable {r y : CStr} {rs : List CStr} {u : Unspecified} {new new' : List UInt8}
  {M M' M'' : Variables}

theorem downPieces_sound : ∀ p ∈ downPieces, p.Sound := by
  have hall : ∀ p ∈ downPieces, (∀ s ∈ p.spans, s.1 ≤ s.2) ∧
      ∀ t ∈ p.texts, (RULE_SEP ∉ t.val ∧ PERCENT ∉ t.val) ∧ t.len ≤ TEXT_LEN := by decide +kernel
  intro p hp
  obtain ⟨hordered, htexts⟩ := hall p hp
  exact ⟨hordered, fun t ht => (htexts t ht).1, fun t ht => (htexts t ht).2⟩

/-! ## What is read of a converted tunnel -/

theorem slice_middle {xs ys zs l : List CStr} {n k : ℕ} (hl : l = xs ++ (ys ++ zs))
    (hn : xs.length = n) (hk : ys.length = k) : (l.take (n + k)).drop n = ys := by
  subst hl hn hk
  rw [← List.append_assoc, List.take_left' (List.length_append), List.drop_left]

theorem getD_middle {xs zs l : List CStr} {x : CStr} {n : ℕ} (hl : l = xs ++ x :: zs)
    (hn : xs.length = n) : l.getD n CStr.empty = x := by
  subst hl hn
  rw [List.getD_eq_getElem?_getD, List.getElem?_append_right le_rfl, Nat.sub_self]
  rfl

theorem Rule175.one_attr (hr : Rule175 r) {n : ℕ} (hn : n < 31) : subrule r n n = [attrAt r n] := by
  obtain ⟨x, hx⟩ := List.length_eq_one_iff.mp ((hr.subrule_length n n le_rfl hn).trans (by omega))
  rw [attrAt, hx]
  rfl

theorem Rule175.subrule_up (hr : Rule175 r) (xs : List CStr) {ys : List CStr} {start stop k : ℕ}
    (hl : ∃ zs, kept175 r ++ algorithms r ++ [.ofString "dh2"] = xs ++ (ys ++ zs))
    (hstart : xs.length = start) (hk : ys.length = k) (hstop : stop + 1 = start + k) :
    subrule (ipsecUp r) start stop = ys := by
  have halgorithms : (algorithms r).length = 5 := rfl
  have hlen : ((ipsecUp r).fields ATTR_SEP).length ≤ MAX_ATTR_NUM := by
    rw [hr.ipsecUp_fields, List.length_append, List.length_append, hr.kept_length, halgorithms]
    decide
  rw [subrule_eq hlen, hstop, hr.ipsecUp_fields]
  exact slice_middle hl.choose_spec hstart hk

theorem Rule175.attr_up (hr : Rule175 r) {xs : List CStr} {x type : CStr} {n : ℕ}
    (htype : type ∈ ipsecNames) (hindex : ipsecNames.idxOf type = n)
    (hl : ∃ zs, kept175 r ++ algorithms r ++ [.ofString "dh2"] = xs ++ x :: zs)
    (hn : xs.length = n) :
    attrNamed (ipsecUp r) type = x := by
  rw [attrNamed, if_pos htype, hindex, hr.ipsecUp_fields]
  exact getD_middle hl.choose_spec hn

/-- The runs that are taken over stand at other positions. -/
theorem Rule175.subrules_up (hr : Rule175 r) : subrule (ipsecUp r) 0 1 = subrule r 0 1 ∧
    subrule (ipsecUp r) 2 10 = subrule r 3 11 ∧ subrule (ipsecUp r) 11 14 = subrule r 27 30 ∧
    subrule (ipsecUp r) 18 19 = subrule r 24 25 := by
  have h01 := hr.subrule_length 0 1 (by decide) (by decide)
  have h311 := hr.subrule_length 3 11 (by decide) (by decide)
  have h2730 := hr.subrule_length 27 30 (by decide) (by decide)
  have h22 := hr.subrule_length 2 2 (by decide) (by decide)
  have h1212 := hr.subrule_length 12 12 (by decide) (by decide)
  have h1818 := hr.subrule_length 18 18 (by decide) (by decide)
  have h2425 := hr.subrule_length 24 25 (by decide) (by decide)
  refine ⟨?_, ?_, ?_, ?_⟩
  · refine hr.subrule_up [] ?_ rfl h01 rfl
    exact ⟨_, by simp only [kept175, List.append_assoc, List.nil_append]; rfl⟩
  · refine hr.subrule_up (subrule r 0 1) ?_ h01 h311 rfl
    exact ⟨_, by simp only [kept175, List.append_assoc]; rfl⟩
  · refine hr.subrule_up (subrule r 0 1 ++ subrule r 3 11) ?_ ?_ h2730 rfl
    · exact ⟨_, by simp only [kept175, List.append_assoc]; rfl⟩
    · rw [List.length_append, h01, h311]
  · refine hr.subrule_up (subrule r 0 1 ++ (subrule r 3 11 ++ (subrule r 27 30 ++
      (subrule r 2 2 ++ (subrule r 12 12 ++ subrule r 18 18))))) ?_ ?_ h2425 rfl
    · exact ⟨_, by simp only [kept175, List.append_assoc]; rfl⟩
    · simp only [List.length_append, h01, h311, h2730, h22, h1212, h1818]

/-- So do the attributes that are read by name, and others stand where the algorithms were. -/
theorem Rule175.attrs_up (hr : Rule175 r) :
    attrNamed (ipsecUp r) (.ofString "adv") = attrAt r 2 ∧
    attrNamed (ipsecUp r) (.ofString "phase1_mode") = attrAt r 12 ∧
    attrNamed (ipsecUp r) (.ofString "phase1_auth") =
      encryptName (attrAt r 15) (attrAt r 16) (attrAt r 17) := by
  have h01 := hr.subrule_length 0 1 (by decide) (by decide)
  have h311 := hr.subrule_length 3 11 (by decide) (by decide)
  have h2730 := hr.subrule_length 27 30 (by decide) (by decide)
  have hadv : (subrule r 0 1 ++ (subrule r 3 11 ++ subrule r 27 30)).length = 15 := by
    simp only [List.length_append, h01, h311, h2730]
  have hmode : (subrule r 0 1 ++ (subrule r 3 11 ++ (subrule r 27 30 ++ [attrAt r 2]))).length =
      16 := by
    simp only [List.length_append, h01, h311, h2730, List.length_singleton]
  have hauth : (kept175 r ++ [authName (attrAt r 13) (attrAt r 14)]).length = 21 := by
    rw [List.length_append, hr.kept_length]
    rfl
  refine ⟨hr.attr_up (by decide +kernel) (by decide +kernel) ?_ hadv,
    hr.attr_up (by decide +kernel) (by decide +kernel) ?_ hmode,
    hr.attr_up (by decide +kernel) (by decide +kernel) ?_ hauth⟩
  · exact ⟨_, by simp only [kept175, List.append_assoc, hr.one_attr (n := 2) (by decide)]; rfl⟩
  · exact ⟨_, by simp only [kept175, List.append_assoc, hr.one_attr (n := 2) (by decide),
      hr.one_attr (n := 12) (by decide)]; rfl⟩
  · exact ⟨_, by rw [List.append_assoc, List.append_assoc]; rfl⟩

theorem attrNamed_missing (y : CStr) : attrNamed y (.ofString "phase1_id") = CStr.empty := by
  have hmissing : CStr.ofString "phase1_id" ∉ ipsecNames := by decide +kernel
  rw [attrNamed, if_neg hmissing]

/-- The flags of the first group are both set. -/
theorem authFlags_encrypt (tmp tmp2 tmp3 : CStr) :
    authFlags ((encryptName tmp tmp2 tmp3).take (ATTR_LEN - 1)) = .ofString "1^1^" := by
  rcases encryptName_mem tmp tmp2 tmp3 with h | h | h <;> rw [h] <;> decide +kernel


/-! ## What the way back makes of it -/

/-- The attributes in front of the flags of the first group. -/
def frontDown (r : CStr) : List CStr := subrule r 0 1 ++ ([(attrAt r 2).take (ATTR_LEN - 1)] ++
  (subrule r 3 11 ++ [(attrAt r 12).take (ATTR_LEN - 1)]))

theorem Rule175.frontDown_length (hr : Rule175 r) : (frontDown r).length = 13 := by
  simp only [frontDown, List.length_append, List.length_singleton]
  rw [hr.subrule_length _ _ (by decide) (by decide), hr.subrule_length _ _ (by decide) (by decide)]

/-- The pieces of the tunnel up to these flags. -/
theorem Rule175.ipsecDown_eq (hr : Rule175 r) : ipsecDown (ipsecUp r) =
    (CStr.lines ATTR_SEP ATTR_SEP_ne (frontDown r ++ [.ofString "1", .ofString "1"])).append
      (CStr.concat ((downPieces.drop 5).map (Piece.of (ipsecUp r)))) := by
  obtain ⟨h01, h210, -, -⟩ := hr.subrules_up
  obtain ⟨hadv, hmode, hauth⟩ := hr.attrs_up
  have hspan : (Piece.span 0 1 (.ofString "^")).of (ipsecUp r) =
      CStr.lines ATTR_SEP ATTR_SEP_ne (subrule r 0 1) := by
    rw [← h01]
    exact span_lines (h01.symm ▸ hr.subrule_ne (by decide) (by decide))
  have hspan' : (Piece.span 2 10 (.ofString "^")).of (ipsecUp r) =
      CStr.lines ATTR_SEP ATTR_SEP_ne (subrule r 3 11) := by
    rw [← h210]
    exact span_lines (h210.symm ▸ hr.subrule_ne (by decide) (by decide))
  have hname : (Piece.attr (.ofString "adv")).of (ipsecUp r) =
      CStr.lines ATTR_SEP ATTR_SEP_ne [(attrAt r 2).take (ATTR_LEN - 1)] := by
    rw [← hadv]
    exact name_lines _
  have hname' : (Piece.attr (.ofString "phase1_mode")).of (ipsecUp r) =
      CStr.lines ATTR_SEP ATTR_SEP_ne [(attrAt r 12).take (ATTR_LEN - 1)] := by
    rw [← hmode]
    exact name_lines _
  have hflags : (Piece.authFlags (.ofString "phase1_auth")).of (ipsecUp r) =
      CStr.lines ATTR_SEP ATTR_SEP_ne [.ofString "1", .ofString "1"] := by
    change authFlags ((attrNamed (ipsecUp r) (.ofString "phase1_auth")).take (ATTR_LEN - 1)) = _
    rw [hauth, authFlags_encrypt]
    exact Subtype.ext rfl
  have hsplit : ipsecDown (ipsecUp r) = CStr.concat ((downPieces.take 5).map
      (Piece.of (ipsecUp r)) ++ (downPieces.drop 5).map (Piece.of (ipsecUp r))) := rfl
  have hfront : CStr.concat ((downPieces.take 5).map (Piece.of (ipsecUp r))) =
      CStr.lines ATTR_SEP ATTR_SEP_ne (frontDown r ++ [.ofString "1", .ofString "1"]) := by
    simp only [downPieces, List.take_succ_cons, List.take_zero, List.map_cons, List.map_nil,
      CStr.concat, hspan, hname, hspan', hname', hflags, frontDown, CStr.lines_append,
      CStr.append_assoc, CStr.append_empty]
  rw [hsplit, CStr.concat_append, hfront]

/-- Both flags of the first group are set. -/
theorem Rule175.down_flags (hr : Rule175 r) :
    ((ipsecDown (ipsecUp r)).fields ATTR_SEP)[13]? = some (.ofString "1") ∧
      ((ipsecDown (ipsecUp r)).fields ATTR_SEP)[14]? = some (.ofString "1") := by
  have hone : ATTR_SEP ∉ (CStr.ofString "1").val := by decide
  have htaken {n : ℕ} (hn : n < 31) : ATTR_SEP ∉ ((attrAt r n).take (ATTR_LEN - 1)).val := by
    have hmem : attrAt r n ∈ subrule r n n := by
      rw [hr.one_attr hn]
      exact List.mem_singleton_self _
    exact fun h => attr_free (subrule_sublist.subset hmem) (List.mem_of_mem_take h)
  have hfree : ∀ f ∈ frontDown r ++ [.ofString "1", .ofString "1"], ATTR_SEP ∉ f.val := by
    intro f hf
    simp only [frontDown, List.mem_append, List.mem_cons, List.not_mem_nil, or_false] at hf
    rcases hf with (hf | rfl | hf | rfl) | rfl | rfl
    · exact attr_free (subrule_sublist.subset hf)
    · exact htaken (by decide)
    · exact attr_free (subrule_sublist.subset hf)
    · exact htaken (by decide)
    · exact hone
    · exact hone
  have hlen := hr.frontDown_length
  rw [hr.ipsecDown_eq, CStr.fields_lines_append _ hfree, List.append_assoc]
  constructor
  · rw [List.getElem?_append_right (by omega), hlen]
    rfl
  · rw [List.getElem?_append_right (by omega), hlen]
    rfl

/-! ## How long the tunnels are -/

/-- The length of attributes with a separator behind each. -/
def linesLen (xs : List CStr) : ℕ := (CStr.lines ATTR_SEP ATTR_SEP_ne xs).len

theorem linesLen_append (xs ys : List CStr) : linesLen (xs ++ ys) = linesLen xs + linesLen ys := by
  rw [linesLen, CStr.lines_append, CStr.append_len]
  rfl

theorem linesLen_cons (x : CStr) (xs : List CStr) : linesLen (x :: xs) = x.len + 1 + linesLen xs :=
  CStr.lines_cons_len _ x xs

theorem linesLen_nil : linesLen [] = 0 := rfl

theorem linesLen_join {xs : List CStr} (hxs : xs ≠ []) : linesLen xs = (joinAttrs xs).len + 1 :=
  CStr.lines_len _ hxs

theorem Rule175.up_len (hr : Rule175 r) : linesLen (kept175 r) + 23 ≤ (ipsecUp r).len := by
  have hauth (tmp tmp2 : CStr) : 3 ≤ (authName tmp tmp2).len := by
    rcases authName_mem tmp tmp2 with h | h <;> rw [h] <;> decide
  have hencrypt (tmp tmp2 tmp3 : CStr) : 3 ≤ (encryptName tmp tmp2 tmp3).len := by
    rcases encryptName_mem tmp tmp2 tmp3 with h | h | h <;> rw [h] <;> decide
  have hgroup : (CStr.ofString "dh2").len = 3 := by decide
  have hlen : (ipsecUp r).len = linesLen (kept175 r) + linesLen (algorithms r) + 3 := by
    rw [hr.ipsecUp_eq, CStr.append_len, hgroup, ← linesLen_append]
    rfl
  have h1 := hauth (attrAt r 13) (attrAt r 14)
  have h2 := hencrypt (attrAt r 15) (attrAt r 16) (attrAt r 17)
  have h3 := hauth (attrAt r 19) (attrAt r 20)
  have h4 := hencrypt (attrAt r 21) (attrAt r 22) (attrAt r 23)
  rw [hlen, algorithms]
  simp only [linesLen_cons, linesLen_nil, hgroup]
  omega

theorem authFlags_len (tmp : CStr) : (authFlags tmp).len = 4 := by
  rw [authFlags]
  split_ifs <;> decide

theorem encryptFlags_len {other : CStr} (hother : other.len = 6) (tmp : CStr) :
    (encryptFlags other tmp).len = 6 := by
  rw [encryptFlags]
  split_ifs
  · decide
  · decide
  · decide
  · exact hother

/-- What is kept of a tunnel, run by run. -/
theorem kept_linesLen : linesLen (kept175 r) = linesLen (subrule r 0 1) +
    (linesLen (subrule r 3 11) + (linesLen (subrule r 27 30) + (linesLen (subrule r 2 2) +
      (linesLen (subrule r 12 12) + (linesLen (subrule r 18 18) + linesLen (subrule r 24 25)))))) := by
  simp only [kept175, linesLen_append]

theorem Rule175.front_len (hr : Rule175 r) : linesLen (frontDown r) ≤ linesLen (subrule r 0 1) +
    linesLen (subrule r 2 2) + linesLen (subrule r 3 11) + linesLen (subrule r 12 12) := by
  have htake (n : ℕ) : ((attrAt r n).take (ATTR_LEN - 1)).len ≤ (attrAt r n).len :=
    List.length_take_le' _ _
  have h2 := htake 2
  have h12 := htake 12
  rw [frontDown, hr.one_attr (n := 2) (by decide), hr.one_attr (n := 12) (by decide)]
  simp only [linesLen_append, linesLen_cons, linesLen_nil]
  omega

/-- The pieces behind the flags of the first group. -/
theorem Rule175.rest_len (hr : Rule175 r) :
    (CStr.concat ((downPieces.drop 5).map (Piece.of (ipsecUp r)))).len + 1 =
      linesLen (subrule r 24 25) + linesLen (subrule r 27 30) + 19 := by
  obtain ⟨-, -, h1114, h1819⟩ := hr.subrules_up
  have hsep : (CStr.ofString "^").len = 1 := by decide
  have hpfs : (CStr.ofString "0^").len = 2 := by decide
  have hid : ((Piece.attr (.ofString "phase1_id")).of (ipsecUp r)).len = 1 := by
    change (CStr.concat [(attrNamed (ipsecUp r) (.ofString "phase1_id")).take (ATTR_LEN - 1),
      .ofString "^"]).len = 1
    rw [attrNamed_missing]
    decide
  have hspan : ((Piece.span 18 19 (.ofString "^")).of (ipsecUp r)).len =
      linesLen (subrule r 24 25) := by
    rw [← h1819]
    exact congrArg CStr.len (span_lines (h1819.symm ▸ hr.subrule_ne (by decide) (by decide)))
  have hlast : ((Piece.span 11 14 CStr.empty).of (ipsecUp r)).len + 1 =
      linesLen (subrule r 27 30) := by
    rw [linesLen_join (hr.subrule_ne (by decide) (by decide)), ← h1114]
    exact congrArg (fun s : CStr => s.len + 1) (Subtype.ext (List.append_nil _))
  have hencrypt (type other : CStr) (hother : other.len = 6) :
      ((Piece.encryptFlags type other).of (ipsecUp r)).len = 6 := encryptFlags_len hother _
  have hauth (type : CStr) : ((Piece.authFlags type).of (ipsecUp r)).len = 4 := authFlags_len _
  have htext : ((Piece.text (.ofString "0^")).of (ipsecUp r)).len = 2 := hpfs
  simp only [downPieces, List.drop_succ_cons, List.drop_zero, List.map_cons, List.map_nil,
    CStr.concat, CStr.append_len, CStr.empty_len]
  rw [hid, hspan, hauth, htext, hencrypt _ _ (by decide), hencrypt _ _ (by decide)]
  omega

/-- The way back makes it shorter. -/
theorem Rule175.down_len (hr : Rule175 r) : (ipsecDown (ipsecUp r)).len < (ipsecUp r).len := by
  have hup := hr.up_len
  have hfront := hr.front_len
  have hrest := hr.rest_len
  have hkept := kept_linesLen (r := r)
  have hflags : linesLen [.ofString "1", .ofString "1"] = 4 := by decide
  have hlen : (ipsecDown (ipsecUp r)).len = linesLen (frontDown r) + 4 +
      (CStr.concat ((downPieces.drop 5).map (Piece.of (ipsecUp r)))).len := by
    rw [hr.ipsecDown_eq, CStr.append_len, ← hflags, ← linesLen_append]
    rfl
  have hid : 1 ≤ linesLen (subrule r 18 18) := by
    rw [linesLen_join (hr.subrule_ne le_rfl (by decide))]
    omega
  omega

theorem Rule175.subrule_append (hr : Rule175 r) {start stop next : ℕ} (hle : start ≤ stop + 1)
    (hstop : stop < next) (hnext : next < 31) :
    subrule r start stop ++ subrule r (stop + 1) next = subrule r start next := by
  have h31 := hr.fields
  have hmax : (r.fields ATTR_SEP).length ≤ MAX_ATTR_NUM := by rw [h31]; decide
  have htake : (r.fields ATTR_SEP).take (stop + 1) =
      ((r.fields ATTR_SEP).take (next + 1)).take (stop + 1) := by
    rw [List.take_take, Nat.min_eq_left (by omega)]
  rw [subrule_eq hmax, subrule_eq hmax, subrule_eq hmax, htake]
  rw [← List.drop_append_of_le_length, List.take_append_drop]
  rw [List.length_take, List.length_take, h31]
  omega

theorem Rule175.len_eq (hr : Rule175 r) : r.len + 1 = linesLen (subrule r 0 30) := by
  have h31 := hr.fields
  have hmax : (r.fields ATTR_SEP).length ≤ MAX_ATTR_NUM := by rw [h31]; decide
  rw [subrule_eq hmax, List.drop_zero, List.take_of_length_le (by rw [h31]),
    linesLen_join (attrs_ne_nil r), joinAttrs_fields]

theorem Rule175.linesLen_split (hr : Rule175 r) (start stop next : ℕ) (hnext : stop + 1 = next)
    (hle : start ≤ next) (hlast : next ≤ 30) : linesLen (subrule r start 30) =
      linesLen (subrule r start stop) + linesLen (subrule r next 30) := by
  subst hnext
  rw [← linesLen_append, hr.subrule_append hle (by omega) (by decide)]

theorem OneFlag.linesLen {flags : List CStr} (h : OneFlag flags) :
    UserNvram.linesLen flags = 2 * flags.length := by
  have hone : ∀ f ∈ flags, f.len = 1 := by
    intro f hf
    rcases h.1 f hf with rfl | rfl <;> decide
  clear h
  induction flags with
  | nil => rfl
  | cons f flags ih =>
    rw [linesLen_cons, hone f List.mem_cons_self, ih fun g hg => hone g (List.mem_cons_of_mem _ hg),
      List.length_cons]
    omega

/-- The way to the newer release makes it longer. -/
theorem Tunnel175.len_le (hr : Tunnel175 r) : r.len ≤ (ipsecUp r).len := by
  have hrule := hr.toRule175
  have hup := hrule.up_len
  have hkept := kept_linesLen (r := r)
  have hall := hrule.len_eq
  have h2 := hrule.linesLen_split 0 1 2 rfl (by decide) (by decide)
  have h3 := hrule.linesLen_split 2 2 3 rfl (by decide) (by decide)
  have h12 := hrule.linesLen_split 3 11 12 rfl (by decide) (by decide)
  have h13 := hrule.linesLen_split 12 12 13 rfl (by decide) (by decide)
  have h15 := hrule.linesLen_split 13 14 15 rfl (by decide) (by decide)
  have h18 := hrule.linesLen_split 15 17 18 rfl (by decide) (by decide)
  have h19 := hrule.linesLen_split 18 18 19 rfl (by decide) (by decide)
  have h21 := hrule.linesLen_split 19 20 21 rfl (by decide) (by decide)
  have h24 := hrule.linesLen_split 21 23 24 rfl (by decide) (by decide)
  have h26 := hrule.linesLen_split 24 25 26 rfl (by decide) (by decide)
  have h27 := hrule.linesLen_split 26 26 27 rfl (by decide) (by decide)
  have hauth1 := hr.auth1.linesLen
  have hencrypt1 := hr.encrypt1.linesLen
  have hauth2 := hr.auth2.linesLen
  have hencrypt2 := hr.encrypt2.linesLen
  have hpfs : linesLen (subrule r 26 26) ≤ 2 := by
    rw [hrule.one_attr (by omega), linesLen_cons, linesLen_nil]
    exact Nat.add_le_add_right hr.pfs 1
  rw [hrule.subrule_length _ _ (by omega) (by omega)] at hauth1 hencrypt1 hauth2 hencrypt2
  omega

/-! ## A rule of a set -/

/-- The converted rules are not too many for the library. -/
theorem total_tunnels (hrs : ∀ r ∈ rs, Tunnel175 r)
    (hshort : (rs.map fun r => (ipsecUp r).len).sum < RULE_LEN) :
    total ruleSize rs + (rs.map fun r => (ipsecUp r).len).sum < EZPLIB_BUF_LEN := by
  have hsizes : RULE_LEN = 1024 ∧ EZPLIB_BUF_LEN = 8192 := ⟨rfl, rfl⟩
  have hdouble : total ruleSize rs ≤ 2 * (rs.map fun r => (ipsecUp r).len).sum := by
    clear hshort
    induction rs with
    | nil => exact Nat.zero_le _
    | cons r rs ih =>
      have hrest := ih fun x hx => hrs x (List.mem_cons_of_mem r hx)
      have hr := hrs r List.mem_cons_self
      have hlen := hr.len_le
      have hpos := hr.ipsecUp_pos
      simp only [total, List.map_cons, List.sum_cons, ruleSize] at hrest ⊢
      omega
  omega

/-- The loop changes the tunnels alone. -/
theorem confined_convertIpsec {P : CStr → Prop} (hset : P IPSEC_RULE) (u : Unspecified)
    (pieces : List Piece) (new : List UInt8) : Confined P (convertIpsec u pieces new).run := by
  have hpiece (p : Piece) (i : ℕ) : Confined P (p.run u i).run := by
    have hsub (start stop : ℕ) := confined_subruleIn (P := P) u ATTR_LEN IPSEC_RULE i start stop
    have hattr (type : CStr) : Confined P (attrIn u ATTR_LEN IPSEC_RULE i type).run :=
      confined_bind (confined_attrVal u IPSEC_RULE i type ATTR_LEN) fun _ => trivial
    cases p with
    | span start stop tail => exact confined_bind (hsub start stop) fun _ => trivial
    | attr type => exact confined_bind (hattr type) fun _ => trivial
    | auth md5 sha1 =>
      exact confined_bind (hsub md5 md5) fun _ => confined_bind (hsub sha1 sha1) fun _ => trivial
    | encrypt des tripleDes aes =>
      exact confined_bind (hsub des des) fun _ => confined_bind (hsub tripleDes tripleDes) fun _ =>
        confined_bind (hsub aes aes) fun _ => trivial
    | authFlags type => exact confined_bind (hattr type) fun _ => trivial
    | encryptFlags type other => exact confined_bind (hattr type) fun _ => trivial
    | text t => trivial
  have hpieces (ps : List Piece) (i : ℕ) (c : Cursor) : Confined P (printPieces u i ps c).run := by
    induction ps generalizing c with
    | nil => trivial
    | cons p ps ih =>
      apply confined_bind (hpiece p i)
      intro w
      cases c.put w with
      | none => trivial
      | some c => exact ih c
  have hround (i : ℕ) (c : Cursor) : Confined P (convertRule u pieces i c).run := by
    apply confined_bind
    · exact confined_bind (confined_lift (confined_getRule u IPSEC_RULE i RULE_LEN)) fun _ => trivial
    · intro old
      split_ifs
      · trivial
      · apply confined_bind (hpieces pieces i c.rewind)
        intro c
        exact confined_bind (confined_lift (confined_replaceRule u hset i _)) fun _ => trivial
  have hloop (n i : ℕ) (c : Cursor) : Confined P (convertFrom u pieces n i c).run := by
    induction n generalizing i c with
    | zero => trivial
    | succ n ih => exact confined_bind (hround i c) fun c => ih (i + 1) c
  apply confined_bind (confined_lift (confined_safeGet IPSEC_RULE_NUM))
  exact fun num => confined_bind (hloop _ 0 ⟨new, 0, 0⟩) fun _ => trivial

/-- The first rule is converted, and stays so. -/
theorem first_converted {pieces : List Piece} {fs : List CStr} (h : Lists M fs)
    (hr : fs[0]? = some r) (hne : r ≠ CStr.empty) (hps : ∀ p ∈ pieces, p.Sound)
    (hcount : pieces.length ≤ 13) (hpos : 0 < (converted pieces r).len)
    (hroom : total ruleSize fs ≤ EZPLIB_BUF_LEN)
    (hset : total ruleSize (fs.set 0 (converted pieces r)) < EZPLIB_BUF_LEN)
    (hnew : new.length = RULE_LEN) (hrounds : ipsecRounds M ≠ 0)
    (hrun : runOn (convertIpsec u pieces new) M = (.ok (), M')) :
    ∃ fs', Lists M' fs' ∧ fs'[0]? = some (converted pieces r) ∧
      total ruleSize fs' ≤ EZPLIB_BUF_LEN := by
  obtain ⟨n, hn⟩ := Nat.exists_eq_succ_of_ne_zero hrounds
  obtain ⟨q, hloop⟩ := convertIpsec_iff.mp hrun
  rw [hn] at hloop
  obtain ⟨c', M₁, hround, hrest⟩ := runOn_bind_inv hloop
  have ha : Active fs 0 r := ⟨hr, hne, hroom⟩
  have hfits := ((h.round_iff ha hps).mp hround).1
  have hlen : (converted pieces r).len < new.length := by
    have hle := converted_len hps hfits
    have hsizes : ATTR_LEN + TEXT_LEN = 70 ∧ RULE_LEN = 1024 := ⟨rfl, rfl⟩
    rw [hsizes.1] at hle
    omega
  obtain ⟨hlists, -, -, hplain⟩ := h.round_whole ha hps hpos ((Nat.zero_add _).trans_lt hlen) hround
  rw [replaceAt, if_pos ⟨hroom, hset⟩] at hlists
  have hindex : 0 < (fs.set 0 (converted pieces r)).length := by
    rw [List.length_set]
    exact ha.index
  obtain ⟨fs', hlists', hleaves⟩ :=
    hlists.rounds_leave hps hindex Nat.zero_lt_one (fun _ => hplain) hrest
  exact ⟨fs', hlists', hleaves.same.trans (List.getElem?_set_self ha.index), hleaves.room hset.le⟩

/-- A tunnel that is converted comes back as what the way back makes of it, if anything does. -/
theorem first_lost (hnew : new.length = RULE_LEN) (hnew' : new'.length = RULE_LEN)
    (hrules : ∀ r ∈ rulesOf (M IPSEC_RULE), Tunnel175 r)
    (hshort : ((rulesOf (M IPSEC_RULE)).map fun r => (ipsecUp r).len).sum < RULE_LEN)
    (hrounds : ipsecRounds M ≠ 0) (hr : (rulesOf (M IPSEC_RULE))[0]? = some r)
    (hup : runOn (fwFunc175To176 u new) M = (.ok (), M'))
    (hdown : runOn (fwFunc176To175 u new') M' = (.ok (), M'')) :
    (rulesOf (M'' IPSEC_RULE))[0]? = some (ipsecDown (ipsecUp r)) := by
  have hmem := List.mem_of_getElem? hr
  have hrule := (hrules r hmem).toRule175
  have hlists := (holdsRules_of (List.ne_nil_of_mem hmem)
    fun r hr => (hrules r hr).toStorable).lists
  have htotal := total_tunnels hrules hshort
  have hsame : ipsecRounds M' = ipsecRounds M := by
    have hnum : M' IPSEC_RULE_NUM = M IPSEC_RULE_NUM := runOn_confined hup
      (confined_convertIpsec (P := fun m => m = IPSEC_RULE) rfl u upPieces new) (by decide)
    rw [ipsecRounds, ipsecRounds, text, text, hnum]
  have hfirst : (ipsecUp r).len ≤ ((rulesOf (M IPSEC_RULE)).map fun r => (ipsecUp r).len).sum := by
    obtain ⟨rest, hrest⟩ := List.head?_eq_some_iff.mp (List.head?_eq_getElem?.trans hr)
    rw [hrest, List.map_cons, List.sum_cons]
    exact Nat.le_add_right _ _
  have hset := total_set ruleSize (ipsecUp r) hr
  have hsize (s : CStr) : ruleSize s = s.len + 1 := rfl
  rw [hsize, hsize] at hset
  have hfits : total ruleSize ((rulesOf (M IPSEC_RULE)).set 0 (ipsecUp r)) < EZPLIB_BUF_LEN := by
    omega
  obtain ⟨fs, hfs, hone, hroom⟩ := first_converted hlists hr hrule.ne upPieces_sound (by decide)
    hrule.ipsecUp_pos (by omega) hfits hnew hrounds hup
  have hless := hrule.down_len
  have hset' := total_set ruleSize (ipsecDown (ipsecUp r)) hone
  rw [hsize, hsize, ← ipsecUp] at hset'
  have hfits' : total ruleSize (fs.set 0 (ipsecDown (ipsecUp r))) < EZPLIB_BUF_LEN := by omega
  have hne : ipsecUp r ≠ CStr.empty := by
    intro h
    have hpos := hrule.ipsecUp_pos
    rw [h] at hpos
    exact absurd hpos (by decide)
  have hpos : 0 < (ipsecDown (ipsecUp r)).len := by
    have hflags := hrule.down_flags.1
    by_contra hzero
    have hempty : ipsecDown (ipsecUp r) = CStr.empty :=
      Subtype.ext (List.eq_nil_of_length_eq_zero (Nat.eq_zero_of_not_pos hzero))
    rw [hempty] at hflags
    exact absurd hflags (by decide)
  obtain ⟨fs', hfs', hback, -⟩ := first_converted hfs hone hne downPieces_sound (by decide) hpos
    hroom hfits' hnew' (hsame ▸ hrounds) hdown
  rw [hfs'.rulesOf]
  exact hback

theorem down_differs (hr : Tunnel175 r) : ((ipsecDown (ipsecUp r)).fields ATTR_SEP).eraseIdx 26 ≠
    (r.fields ATTR_SEP).eraseIdx 26 := by
  intro h
  obtain ⟨h13, h14⟩ := hr.down_flags
  have hsame {n : ℕ} (hn : n < 26) : ((ipsecDown (ipsecUp r)).fields ATTR_SEP)[n]? =
      (r.fields ATTR_SEP)[n]? := by
    have hget := congrArg (fun l => l[n]?) h
    simpa only [List.getElem?_eraseIdx_of_lt hn] using hget
  have hmax : (r.fields ATTR_SEP).length ≤ MAX_ATTR_NUM := by rw [hr.fields]; decide
  have hget {n : ℕ} (hn : 13 + n < 15) : (subrule r 13 14)[n]? = (r.fields ATTR_SEP)[13 + n]? := by
    rw [subrule_eq hmax, List.getElem?_drop, List.getElem?_take_of_lt hn]
  obtain ⟨x, y, hxy⟩ := List.length_eq_two.mp (hr.subrule_length 13 14 (by decide) (by decide))
  have hx := (hget (n := 0) (by decide)).trans ((hsame (by decide)).symm.trans h13)
  have hy := (hget (n := 1) (by decide)).trans ((hsame (by decide)).symm.trans h14)
  rw [hxy] at hx hy
  have hgroup : subrule r 13 14 = [.ofString "1", .ofString "1"] := by
    rw [hxy, Option.some.inj hx, Option.some.inj hy]
  have hcount := hr.auth1.2
  rw [hgroup] at hcount
  exact absurd hcount (by decide)

/-- Where no rule is converted, nothing changes. -/
theorem restores_idle (hidle : ipsecRounds M = 0 ∨ rulesOf (M IPSEC_RULE) = []) :
    RestoresTunnels u new new' M := by
  have hsame (pieces : List Piece) (new : List UInt8) :
      runOn (convertIpsec u pieces new) M = (.ok (), M) := by
    apply convertIpsec_iff.mpr
    rcases hidle with hzero | hempty
    · rw [hzero]
      exact ⟨_, rfl⟩
    · exact rounds_empty hempty
  exact ⟨M, M, hsame upPieces new, hsame downPieces new', rfl⟩

/-- Where one is, the first one is lost. -/
theorem not_restored (hnew : new.length = RULE_LEN) (hnew' : new'.length = RULE_LEN)
    (hrules : ∀ r ∈ rulesOf (M IPSEC_RULE), Tunnel175 r)
    (hshort : ((rulesOf (M IPSEC_RULE)).map fun r => (ipsecUp r).len).sum < RULE_LEN)
    (hrounds : ipsecRounds M ≠ 0) (hne : rulesOf (M IPSEC_RULE) ≠ []) :
    ¬ RestoresTunnels u new new' M := by
  rintro ⟨M', M'', hup, hdown, hback⟩
  obtain ⟨r, hr⟩ : ∃ r, (rulesOf (M IPSEC_RULE))[0]? = some r :=
    ⟨_, List.getElem?_eq_getElem (List.length_pos_of_ne_nil hne)⟩
  have hlost := first_lost hnew hnew' hrules hshort hrounds hr hup hdown
  have hfirst := congrArg (fun l => l[0]?) hback
  simp only [exceptPfs, List.getElem?_map, hlost, hr, Option.map_some] at hfirst
  exact down_differs (hrules r (List.mem_of_getElem? hr)) (Option.some.inj hfirst)

end

/-- The tunnels come back exactly if none is converted. -/
theorem tunnels_restored_iff (u : Unspecified) (new new' : List UInt8) (M : Variables)
    (hnew : new.length = RULE_LEN) (hnew' : new'.length = RULE_LEN)
    (hrules : ∀ r ∈ rulesOf (M IPSEC_RULE), Tunnel175 r)
    (hshort : ((rulesOf (M IPSEC_RULE)).map fun r => (ipsecUp r).len).sum < RULE_LEN) :
    RestoresTunnels u new new' M ↔ ipsecRounds M = 0 ∨ rulesOf (M IPSEC_RULE) = [] := by
  constructor
  · intro h
    by_contra hno
    obtain ⟨hrounds, hne⟩ := not_or.mp hno
    exact not_restored hnew hnew' hrules hshort hrounds hne h
  · exact restores_idle

theorem longTunnel_175 : Tunnel175 longTunnel := by
  have hall : OneFlag (subrule longTunnel 13 14) ∧ OneFlag (subrule longTunnel 15 17) ∧
      OneFlag (subrule longTunnel 19 20) ∧ OneFlag (subrule longTunnel 21 23) ∧
      (attrAt longTunnel 26).len ≤ 1 := by decide +kernel
  obtain ⟨hauth1, hencrypt1, hauth2, hencrypt2, hpfs⟩ := hall
  exact ⟨longTunnel_rule.1, hauth1, hencrypt1, hauth2, hencrypt2, hpfs⟩

/-- Some rules, and no number of them. -/
def unnumbered (n : ℕ) : Variables := Function.update (longTunnels n) IPSEC_RULE_NUM none

theorem longTunnels_config {n : ℕ} (hn : n ≠ 0) (hfew : n ≤ 2) :
    (∀ r ∈ rulesOf (longTunnels n IPSEC_RULE), Tunnel175 r) ∧
      ((rulesOf (longTunnels n IPSEC_RULE)).map fun r => (ipsecUp r).len).sum < RULE_LEN := by
  rw [longTunnels_rules hn]
  constructor
  · intro r hr
    rw [List.eq_of_mem_replicate hr]
    exact longTunnel_175
  · rw [List.map_replicate, List.sum_replicate_nat, longTunnel_rule.2.2.2]
    have hsize : RULE_LEN = 1024 := rfl
    omega

theorem tunnels_restored_unnumbered : RestoresTunnels clean (List.replicate RULE_LEN 0)
    (List.replicate RULE_LEN 0) (unnumbered 2) := by
  have hset : unnumbered 2 IPSEC_RULE = longTunnels 2 IPSEC_RULE :=
    Function.update_of_ne (by decide) _ _
  obtain ⟨hrules, hshort⟩ := longTunnels_config (n := 2) (by decide) le_rfl
  rw [← hset] at hrules hshort
  exact (tunnels_restored_iff clean (List.replicate RULE_LEN 0) (List.replicate RULE_LEN 0)
    (unnumbered 2) List.length_replicate List.length_replicate hrules hshort).mpr
    (.inl (by decide))

/-- One tunnel that is converted comes back with two algorithms. -/
theorem oneTunnel_lost : (∀ r ∈ rulesOf (longTunnels 1 IPSEC_RULE), Tunnel175 r) ∧
    ((rulesOf (longTunnels 1 IPSEC_RULE)).map fun r => (ipsecUp r).len).sum < RULE_LEN ∧
    ¬ RestoresTunnels clean (List.replicate RULE_LEN 0) (List.replicate RULE_LEN 0)
      (longTunnels 1) := by
  obtain ⟨hrules, hshort⟩ := longTunnels_config (n := 1) (by decide) (by decide)
  refine ⟨hrules, hshort, not_restored List.length_replicate List.length_replicate hrules hshort
    (by decide +kernel) ?_⟩
  rw [longTunnels_rules (by decide)]
  exact List.cons_ne_nil _ _

end EzpFirmware.UserNvram
