import EzpFirmware.UserNvram.IpsecMigration

/-! # The attributes of a converted tunnel

A tunnel of the newer release has runs of attributes of the old one, and the names of the algorithms
behind them.
-/
namespace EzpFirmware.UserNvram
open Lib

/-- The tunnel for the newer release. -/
def ipsecUp (r : CStr) : CStr := converted upPieces r

/-- A rule of the older release. It has no percent sign, as `ezplib_get_rule` prints a rule as a
format. -/
structure Rule175 (r : CStr) : Prop extends Storable r where
  fields : (r.fields ATTR_SEP).length = 31

/-- One attribute of a rule. -/
def attrAt (r : CStr) (n : ℕ) : CStr := joinAttrs (subrule r n n)

/-- What is taken over of a tunnel. -/
def kept175 (r : CStr) : List CStr := subrule r 0 1 ++ (subrule r 3 11 ++ (subrule r 27 30 ++
  (subrule r 2 2 ++ (subrule r 12 12 ++ (subrule r 18 18 ++ subrule r 24 25)))))

/-- The names of its algorithms. -/
def algorithms (r : CStr) : List CStr := [authName (attrAt r 13) (attrAt r 14),
  encryptName (attrAt r 15) (attrAt r 16) (attrAt r 17), .ofString "dh2",
  authName (attrAt r 19) (attrAt r 20), encryptName (attrAt r 21) (attrAt r 22) (attrAt r 23)]

section
variable {r x : CStr} {xs : List CStr} {start stop : ℕ} {pieces : List Piece}

theorem upPieces_sound : ∀ p ∈ upPieces, p.Sound := by
  have hall : ∀ p ∈ upPieces, (∀ s ∈ p.spans, s.1 ≤ s.2) ∧
      ∀ t ∈ p.texts, (RULE_SEP ∉ t.val ∧ PERCENT ∉ t.val) ∧ t.len ≤ TEXT_LEN := by decide +kernel
  intro p hp
  obtain ⟨hordered, htexts⟩ := hall p hp
  exact ⟨hordered, fun t ht => (htexts t ht).1, fun t ht => (htexts t ht).2⟩

/-- No converted rule fills the buffer alone. -/
theorem converted_len (hps : ∀ p ∈ pieces, p.Sound) (hfits : ∀ p ∈ pieces, p.Fits r) :
    (converted pieces r).len ≤ (ATTR_LEN + TEXT_LEN) * pieces.length := by
  rw [converted]
  induction pieces with
  | nil => exact Nat.zero_le _
  | cons p ps ih =>
    have hp := Piece.of_len (hps p List.mem_cons_self) (hfits p List.mem_cons_self)
    have hrest := ih (fun p hp => hps p (List.mem_cons_of_mem _ hp))
      fun p hp => hfits p (List.mem_cons_of_mem _ hp)
    rw [List.map_cons, CStr.concat, CStr.append_len, List.length_cons, Nat.mul_succ]
    omega

theorem ipsecUp_len (hfits : ∀ p ∈ upPieces, p.Fits r) : (ipsecUp r).len < RULE_LEN :=
  (converted_len upPieces_sound hfits).trans_lt (by decide)

/-! ## Attributes with a separator behind each -/

theorem span_lines (hxs : xs ≠ []) :
    CStr.concat [joinAttrs xs, .ofString "^"] = CStr.lines ATTR_SEP ATTR_SEP_ne xs := by
  have hlines : CStr.lines ATTR_SEP ATTR_SEP_ne xs =
      CStr.glue ATTR_SEP ATTR_SEP_ne (joinAttrs xs) CStr.empty := CStr.lines_eq _ hxs
  rw [hlines]
  exact Subtype.ext rfl

theorem name_lines (x : CStr) :
    CStr.concat [x, .ofString "^"] = CStr.lines ATTR_SEP ATTR_SEP_ne [x] :=
  span_lines (List.cons_ne_nil x [])

theorem Rule175.subrule_length (hr : Rule175 r) (start stop : ℕ) (hle : start ≤ stop)
    (hstop : stop < 31) :
    (subrule r start stop).length = stop + 1 - start := by
  have h31 := hr.fields
  rw [subrule_eq (by rw [h31]; decide), List.length_drop, List.length_take, h31]
  omega

theorem Rule175.subrule_ne (hr : Rule175 r) (hle : start ≤ stop) (hstop : stop < 31) :
    subrule r start stop ≠ [] := by
  apply List.ne_nil_of_length_pos
  rw [hr.subrule_length start stop hle hstop]
  omega

/-- The converted tunnel is these attributes and the name of a group. -/
theorem Rule175.ipsecUp_eq (hr : Rule175 r) : ipsecUp r =
    (CStr.lines ATTR_SEP ATTR_SEP_ne (kept175 r ++ algorithms r)).append (.ofString "dh2") := by
  have hspan {start stop : ℕ} (hle : start ≤ stop) (hstop : stop < 31) :
      (Piece.span start stop (.ofString "^")).of r =
        CStr.lines ATTR_SEP ATTR_SEP_ne (subrule r start stop) :=
    span_lines (hr.subrule_ne hle hstop)
  have hauth (md5 sha1 : ℕ) : (Piece.auth md5 sha1).of r =
      CStr.lines ATTR_SEP ATTR_SEP_ne [authName (attrAt r md5) (attrAt r sha1)] := name_lines _
  have hencrypt (des tripleDes aes : ℕ) : (Piece.encrypt des tripleDes aes).of r =
      CStr.lines ATTR_SEP ATTR_SEP_ne [encryptName (attrAt r des) (attrAt r tripleDes)
        (attrAt r aes)] := name_lines _
  have hgroup : (Piece.text (.ofString "dh2^")).of r =
      CStr.lines ATTR_SEP ATTR_SEP_ne [.ofString "dh2"] := Subtype.ext rfl
  have hlast : (Piece.text (.ofString "dh2")).of r = .ofString "dh2" := rfl
  have halgorithms : algorithms r = [authName (attrAt r 13) (attrAt r 14)] ++
      ([encryptName (attrAt r 15) (attrAt r 16) (attrAt r 17)] ++ ([.ofString "dh2"] ++
      ([authName (attrAt r 19) (attrAt r 20)] ++
      [encryptName (attrAt r 21) (attrAt r 22) (attrAt r 23)]))) := rfl
  rw [halgorithms, kept175]
  simp only [ipsecUp, converted, upPieces, List.map_cons, List.map_nil, CStr.concat, hauth,
    hencrypt, hgroup, hlast, CStr.lines_append, CStr.append_assoc, CStr.append_empty]
  rw [hspan (by decide) (by decide), hspan (by decide) (by decide), hspan (by decide) (by decide),
    hspan (by decide) (by decide), hspan (by decide) (by decide), hspan (by decide) (by decide),
    hspan (by decide) (by decide)]

theorem Rule175.kept_length (hr : Rule175 r) : (kept175 r).length = 20 := by
  simp only [kept175, List.length_append]
  rw [hr.subrule_length _ _ (by decide) (by decide), hr.subrule_length _ _ (by decide) (by decide),
    hr.subrule_length _ _ (by decide) (by decide), hr.subrule_length _ _ (by decide) (by decide),
    hr.subrule_length _ _ (by decide) (by decide), hr.subrule_length _ _ (by decide) (by decide),
    hr.subrule_length _ _ (by decide) (by decide)]

theorem kept_sublist : ∀ f ∈ kept175 r, f ∈ r.fields ATTR_SEP := by
  intro f hf
  simp only [kept175, List.mem_append] at hf
  rcases hf with hf | hf | hf | hf | hf | hf | hf <;> exact subrule_sublist.subset hf

theorem algorithms_free : ∀ f ∈ algorithms r, ATTR_SEP ∉ f.val := by
  have hgroup : ATTR_SEP ∉ (CStr.ofString "dh2").val := by decide
  have hauth (tmp tmp2 : CStr) : ATTR_SEP ∉ (authName tmp tmp2).val := by
    rcases authName_mem tmp tmp2 with h | h <;> rw [h] <;> decide
  have hencrypt (tmp tmp2 tmp3 : CStr) : ATTR_SEP ∉ (encryptName tmp tmp2 tmp3).val := by
    rcases encryptName_mem tmp tmp2 tmp3 with h | h | h <;> rw [h] <;> decide
  intro f hf
  simp only [algorithms, List.mem_cons, List.not_mem_nil, or_false] at hf
  rcases hf with rfl | rfl | rfl | rfl | rfl
  · exact hauth _ _
  · exact hencrypt _ _ _
  · exact hgroup
  · exact hauth _ _
  · exact hencrypt _ _ _

/-- The attributes of the converted tunnel. -/
theorem Rule175.ipsecUp_fields (hr : Rule175 r) :
    (ipsecUp r).fields ATTR_SEP = kept175 r ++ algorithms r ++ [.ofString "dh2"] := by
  have hgroup : ATTR_SEP ∉ (CStr.ofString "dh2").val := by decide
  rw [hr.ipsecUp_eq, CStr.fields_lines_append, CStr.fields_of_not_mem hgroup]
  intro f hf
  rcases List.mem_append.mp hf with hf | hf
  · exact attr_free (kept_sublist f hf)
  · exact algorithms_free f hf

/-- It has fewer than the old one. -/
theorem Rule175.ipsecUp_ne (hr : Rule175 r) : ipsecUp r ≠ r := by
  intro h
  have halgorithms : (algorithms r).length = 5 := rfl
  have hlen := congrArg List.length hr.ipsecUp_fields
  rw [h, hr.fields, List.length_append, List.length_append, hr.kept_length, halgorithms] at hlen
  exact absurd hlen (by decide)

theorem Rule175.ipsecUp_pos (hr : Rule175 r) : 0 < (ipsecUp r).len := by
  have hgroup : (CStr.ofString "dh2").len = 3 := by decide
  rw [hr.ipsecUp_eq, CStr.append_len, hgroup]
  omega

end

/-! ## The rounds of the loop over tunnels

A round that finds a rule prints a new one and replaces it; any other round leaves everything alone.
A round with enough room leaves the converted rule. Whatever a round leaves, the rules at other
positions stay.
-/

/-- The set of tunnels holds these texts. Some of them may be empty. -/
structure Lists (M : Variables) (fs : List CStr) : Prop where
  stored : M IPSEC_RULE = some (joinRules fs)
  ne : joinRules fs ≠ CStr.empty
  plain : ∀ f ∈ fs, ∀ b ∈ f.val, PlainByte b

/-- The text that can be read in `new` is plain. -/
def ReadsPlain (c : Cursor) : Prop := ∀ b ∈ (CStr.read c.buf).val, PlainByte b

/-- What a round does to a list, seen from position `k`. -/
structure Leaves (k : ℕ) (fs fs' : List CStr) : Prop where
  length : fs'.length = fs.length
  same : fs'[k]? = fs[k]?
  room : total ruleSize fs ≤ EZPLIB_BUF_LEN → total ruleSize fs' ≤ EZPLIB_BUF_LEN

theorem Leaves.refl (k : ℕ) (fs : List CStr) : Leaves k fs fs := ⟨rfl, rfl, id⟩

theorem Leaves.trans {k : ℕ} {fs gs hs : List CStr} (h : Leaves k fs gs) (h' : Leaves k gs hs) :
    Leaves k fs hs :=
  ⟨h'.length.trans h.length, h'.same.trans h.same, fun hroom => h'.room (h.room hroom)⟩

section
variable {u : Unspecified} {M M' : Variables} {fs : List CStr} {r w : CStr} {i k n : ℕ}
  {pieces : List Piece} {c q : Cursor}

theorem Lists.nonempty (h : Lists M fs) : fs ≠ [] := by
  rintro rfl
  exact h.ne rfl

theorem Lists.fields (h : Lists M fs) : (joinRules fs).fields RULE_SEP = fs :=
  CStr.fields_join _ h.nonempty fun f hf => ((plainByte_iff f).mp (h.plain f hf)).1

theorem IPSEC_RULE_ne : IPSEC_RULE ≠ CStr.empty := by decide

theorem Lists.toStored (h : Lists M fs) : Stored M IPSEC_RULE (joinRules fs) := by
  refine ⟨IPSEC_RULE_ne, h.stored, h.ne, fun hp => ?_⟩
  rcases CStr.mem_join hp with hp | ⟨f, hf, hp⟩
  · exact absurd hp (by decide)
  · exact ((plainByte_iff f).mp (h.plain f hf)).2 hp

theorem Lists.readable (h : Lists M fs) (hroom : total ruleSize fs ≤ EZPLIB_BUF_LEN) :
    Readable M IPSEC_RULE (joinRules fs) :=
  h.toStored.readable (by rwa [joinRules_total h.nonempty] at hroom)

theorem HoldsRules.lists {rs : List CStr} (h : HoldsRules M IPSEC_RULE rs) : Lists M rs :=
  ⟨h.stored, h.toStored.ne, fun r hr =>
    (plainByte_iff r).mpr ⟨(h.rules r hr).free, (h.rules r hr).plain⟩⟩

theorem joinRules_two {fs : List CStr} (hlen : 2 ≤ fs.length) : joinRules fs ≠ CStr.empty := by
  intro h
  rcases (CStr.join_eq_empty_iff _).mp h with h | h
  · rw [h] at hlen
    exact absurd hlen (by decide)
  · rw [h] at hlen
    exact absurd hlen (by decide : ¬ 2 ≤ 1)

/-- Whatever replaces a rule, if it is plain and the set does not become empty. -/
theorem Lists.replace (h : Lists M fs) (hi : i < fs.length) (hw : ∀ b ∈ w.val, PlainByte b)
    (hne : joinRules (fs.set i w) ≠ CStr.empty) :
    (onMap (ezplibReplaceRule u IPSEC_RULE i w) M).2 = Function.update M IPSEC_RULE
        (some (joinRules (replaceAt ruleSize EZPLIB_BUF_LEN fs i w))) ∧
      Lists (Function.update M IPSEC_RULE
        (some (joinRules (replaceAt ruleSize EZPLIB_BUF_LEN fs i w))))
        (replaceAt ruleSize EZPLIB_BUF_LEN fs i w) := by
  refine ⟨h.toStored.replaceRule_at h.fields hi fun _ => hne, Function.update_self _ _ _, ?_, ?_⟩
  · rw [replaceAt]
    split_ifs
    · exact hne
    · exact h.ne
  · intro f hf
    rw [replaceAt] at hf
    split_ifs at hf
    · rcases List.mem_or_eq_of_mem_set hf with hf | rfl
      · exact h.plain f hf
      · exact hw
    · exact h.plain f hf

/-! ## One round -/

/-- What `old` holds. -/
theorem Lists.ruleIn (h : Lists M fs) {bsize : ℕ} :
    runOn (ruleIn u bsize IPSEC_RULE i) M =
      (.ok (if total ruleSize fs ≤ EZPLIB_BUF_LEN then (fs[i]?.getD CStr.empty).take (bsize - 1)
        else CStr.empty), M) := by
  have hsame := onMap_of_confined (confined_getRule u IPSEC_RULE i bsize) M
  rw [UserNvram.ruleIn, runOn_bind, runOn_lift, hsame, joinRules_total h.nonempty]
  split_ifs with hroom
  · rw [ezplibGetRule_map IPSEC_RULE_ne h.stored hroom, if_neg h.ne, ruleLoop_nonneg, h.fields]
    cases hf : fs[i]? with
    | none =>
      have hnothing : CStr.empty.take (bsize - 1) = CStr.empty := Subtype.ext List.take_nil
      rw [Option.getD_none, hnothing]
      rfl
    | some f =>
      have hplain := ((plainByte_iff f).mp (h.plain f (List.mem_of_getElem? hf))).2
      dsimp only
      rw [printRule, u.printf_plain f hplain]
      rfl
  · rw [getRule_long IPSEC_RULE_ne h.stored (by omega)]
    rfl

/-- There is a rule to convert, and it can be read. -/
def Active (fs : List CStr) (i : ℕ) (r : CStr) : Prop :=
  fs[i]? = some r ∧ r ≠ CStr.empty ∧ total ruleSize fs ≤ EZPLIB_BUF_LEN

theorem Active.index (h : Active fs i r) : i < fs.length := (List.getElem?_eq_some_iff.mp h.1).1

theorem Lists.round_idle (h : Lists M fs) (hidle : ∀ r, ¬ Active fs i r) :
    runOn (convertRule u pieces i c) M = (.ok c.rewind, M) := by
  have hold : (if total ruleSize fs ≤ EZPLIB_BUF_LEN
      then (fs[i]?.getD CStr.empty).take (RULE_LEN - 1) else CStr.empty) = CStr.empty := by
    split_ifs with hroom
    · have hgone : fs[i]?.getD CStr.empty = CStr.empty := by
        cases hf : fs[i]? with
        | none => rfl
        | some f =>
          by_contra hne
          exact hidle f ⟨hf, hne, hroom⟩
      rw [hgone]
      exact Subtype.ext List.take_nil
    · rfl
  rw [convertRule, runOn_bind_ok h.ruleIn, hold, if_pos rfl]
  rfl

theorem Lists.round_iff (h : Lists M fs) (ha : Active fs i r) (hps : ∀ p ∈ pieces, p.Sound) :
    runOn (convertRule u pieces i c) M = (.ok q, M') ↔ (∀ p ∈ pieces, p.Fits r) ∧
      Cursor.putAll (pieces.map (Piece.of r)) c.rewind = some q ∧
      M' = (onMap (ezplibReplaceRule u IPSEC_RULE i (CStr.read q.buf)) M).2 := by
  obtain ⟨hr, hne, hroom⟩ := ha
  have hold : (fs[i]?.getD CStr.empty).take (RULE_LEN - 1) ≠ CStr.empty := by
    rw [hr, Option.getD_some]
    intro hempty
    have hlen := congrArg CStr.len hempty
    have htake : (r.take (RULE_LEN - 1)).len = min (RULE_LEN - 1) r.len := List.length_take
    have hpos : 0 < r.len := Nat.pos_of_ne_zero fun h0 =>
      hne (Subtype.ext (List.eq_nil_of_length_eq_zero h0))
    have hsize : RULE_LEN - 1 = 1023 := rfl
    rw [htake, CStr.empty_len] at hlen
    omega
  have hprint (q : Cursor) (M₁ : Variables) :
      runOn (printPieces u i pieces c.rewind) M = (.ok q, M₁) ↔ _ :=
    (h.readable hroom).printPieces_iff
      (h.fields.symm ▸ hr : ((joinRules fs).fields RULE_SEP)[i]? = some r) hps
  rw [convertRule, runOn_bind_ok h.ruleIn, if_pos hroom, if_neg hold]
  constructor
  · intro hrun
    obtain ⟨q', M₁, hpieces, hrest⟩ := runOn_bind_inv hrun
    obtain ⟨hfits, hall, rfl⟩ := (hprint q' M₁).mp hpieces
    rw [runOn_bind, runOn_lift] at hrest
    cases hrest
    exact ⟨hfits, hall, rfl⟩
  · rintro ⟨hfits, hall, rfl⟩
    rw [runOn_bind_ok ((hprint q M).mpr ⟨hfits, hall, rfl⟩), runOn_bind, runOn_lift]
    rfl

theorem converted_bytes (hps : ∀ p ∈ pieces, p.Sound) (hr : ∀ b ∈ r.val, PlainByte b) :
    ∀ w ∈ pieces.map (Piece.of r), ∀ b ∈ w.val, PlainByte b := by
  intro w hw
  obtain ⟨p, hp, rfl⟩ := List.mem_map.mp hw
  exact Piece.of_bytes (hps p hp) hr

theorem pieces_ne (hpos : 0 < (converted pieces r).len) : pieces.map (Piece.of r) ≠ [] := by
  intro h
  rw [converted, h] at hpos
  cases hpos

/-- A round with room leaves the rule converted, if it returns. -/
theorem Lists.round_whole (h : Lists M fs) (ha : Active fs i r) (hps : ∀ p ∈ pieces, p.Sound)
    (hpos : 0 < (converted pieces r).len)
    (hroom : c.used + (converted pieces r).len < c.buf.length)
    (hrun : runOn (convertRule u pieces i c) M = (.ok q, M')) :
    Lists M' (replaceAt ruleSize EZPLIB_BUF_LEN fs i (converted pieces r)) ∧
      q.used = c.used + (converted pieces r).len ∧ q.buf.length = c.buf.length ∧ ReadsPlain q := by
  have hbytes := converted_bytes hps (h.plain r (List.mem_of_getElem? ha.1))
  obtain ⟨-, hall, rfl⟩ := (h.round_iff ha hps).mp hrun
  obtain ⟨hused, hlen⟩ := Cursor.putAll_size hall
  obtain ⟨q', hall', hread⟩ := Cursor.putAll_fits (c := c.rewind) rfl (pieces_ne hpos) hroom
  rw [hall] at hall'
  cases hall'
  have hplain : ReadsPlain q :=
    Cursor.putAll_bytes_start (c := c.rewind) rfl (Nat.lt_of_le_of_lt (Nat.le_add_right _ _) hroom)
      (pieces_ne hpos) hbytes hall
  have hne : joinRules (fs.set i (CStr.read q.buf)) ≠ CStr.empty := by
    intro hempty
    have hmem : CStr.read q.buf ∈ fs.set i (CStr.read q.buf) := List.mem_set ha.index _
    have hgone : CStr.read q.buf = CStr.empty := by
      rcases (CStr.join_eq_empty_iff _).mp hempty with h0 | h0
      · rw [h0] at hmem
        cases hmem
      · rw [h0] at hmem
        exact List.mem_singleton.mp hmem
    rw [hgone] at hread
    have hlen0 := congrArg CStr.len hread
    rw [CStr.empty_len] at hlen0
    exact absurd hlen0 hpos.ne
  obtain ⟨hset, hlists⟩ := h.replace (u := u) ha.index hplain hne
  rw [hset]
  rw [hread] at hlists ⊢
  exact ⟨hlists, hused, hlen, hplain⟩

theorem Lists.round_runs (h : Lists M fs) (ha : Active fs i r) (hps : ∀ p ∈ pieces, p.Sound)
    (hpos : 0 < (converted pieces r).len) (hfits : ∀ p ∈ pieces, p.Fits r)
    (hroom : c.used + (converted pieces r).len < c.buf.length) :
    ∃ q M', runOn (convertRule u pieces i c) M = (.ok q, M') := by
  obtain ⟨q, hall, -⟩ := Cursor.putAll_fits (c := c.rewind) rfl (pieces_ne hpos) hroom
  exact ⟨q, _, (h.round_iff ha hps).mpr ⟨hfits, hall, rfl⟩⟩

/-- A round that runs out of room leaves less of the rule, if anything. -/
theorem Lists.round_cut (h : Lists M fs) (ha : Active fs i r) (hps : ∀ p ∈ pieces, p.Sound)
    (hused : c.used < c.buf.length) (hcut : c.buf.length ≤ c.used + (converted pieces r).len)
    (htwo : 2 ≤ fs.length) (hrun : runOn (convertRule u pieces i c) M = (.ok q, M')) :
    ReadsPlain q ∧ ∃ w, w.len < (converted pieces r).len ∧
      Lists M' (replaceAt ruleSize EZPLIB_BUF_LEN fs i w) := by
  obtain ⟨-, hall, rfl⟩ := (h.round_iff ha hps).mp hrun
  have hpos : 0 < (converted pieces r).len := by omega
  have hplain : ReadsPlain q := Cursor.putAll_bytes_start (c := c.rewind) rfl hused (pieces_ne hpos)
    (converted_bytes hps (h.plain r (List.mem_of_getElem? ha.1))) hall
  have hne : joinRules (fs.set i (CStr.read q.buf)) ≠ CStr.empty :=
    joinRules_two (by rwa [List.length_set])
  obtain ⟨hset, hlists⟩ := h.replace (u := u) ha.index hplain hne
  rw [hset]
  exact ⟨hplain, CStr.read q.buf, Cursor.putAll_cut (c := c.rewind) rfl hused hcut hall, hlists⟩

/-- The rules at other positions stay. -/
theorem Lists.round_leaves (h : Lists M fs) (hps : ∀ p ∈ pieces, p.Sound) (hk : k < fs.length)
    (hik : i ≠ k) (hc : total ruleSize fs ≤ EZPLIB_BUF_LEN → ReadsPlain c)
    (hrun : runOn (convertRule u pieces i c) M = (.ok q, M')) :
    ∃ fs', Lists M' fs' ∧ Leaves k fs fs' ∧
      (total ruleSize fs' ≤ EZPLIB_BUF_LEN → ReadsPlain q) := by
  by_cases ha : ∃ r, Active fs i r
  · obtain ⟨r, ha⟩ := ha
    obtain ⟨-, hall, rfl⟩ := (h.round_iff ha hps).mp hrun
    have hplain : ReadsPlain q := Cursor.putAll_bytes (c := c.rewind) (hc ha.2.2)
      (converted_bytes hps (h.plain r (List.mem_of_getElem? ha.1))) hall
    have hi := ha.index
    have hne : joinRules (fs.set i (CStr.read q.buf)) ≠ CStr.empty :=
      joinRules_two (by rw [List.length_set]; omega)
    obtain ⟨hset, hlists⟩ := h.replace (u := u) hi hplain hne
    rw [hset]
    exact ⟨_, hlists, ⟨replaceAt_length, getElem?_replaceAt hik, replaceAt_total⟩,
      fun _ => hplain⟩
  · rw [h.round_idle (not_exists.mp ha)] at hrun
    cases hrun
    exact ⟨fs, h, Leaves.refl k fs, hc⟩

/-- And they stay in all rounds behind. -/
theorem Lists.rounds_leave (h : Lists M fs) (hps : ∀ p ∈ pieces, p.Sound) (hk : k < fs.length)
    (hki : k < i) (hc : total ruleSize fs ≤ EZPLIB_BUF_LEN → ReadsPlain c)
    (hrun : runOn (convertFrom u pieces n i c) M = (.ok q, M')) :
    ∃ fs', Lists M' fs' ∧ Leaves k fs fs' := by
  induction n generalizing i c M fs with
  | zero =>
    cases hrun
    exact ⟨fs, h, Leaves.refl k fs⟩
  | succ n ih =>
    obtain ⟨c', M₁, hround, hrest⟩ := runOn_bind_inv hrun
    obtain ⟨gs, hgs, hleaves, hc'⟩ := h.round_leaves hps hk hki.ne' hc hround
    obtain ⟨hs, hhs, hleaves'⟩ := ih hgs (hleaves.length ▸ hk) (Nat.lt_succ_of_lt hki) hc' hrest
    exact ⟨hs, hhs, hleaves.trans hleaves'⟩

end

end EzpFirmware.UserNvram
