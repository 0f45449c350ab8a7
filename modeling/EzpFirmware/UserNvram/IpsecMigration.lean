import EzpFirmware.Lib.SharedRoom
import EzpFirmware.UserNvram.AttrLayouts
import EzpFirmware.UserNvram.ChangeChecks

/-! # The tunnels between the releases 1.7.5 and 1.7.6

The newer release has the attributes of a tunnel in another order, and names of algorithms instead
of flags. A new rule is printed part by part to `new`. The pointer into it is set back for every
rule, but the length that bounds the prints is counted over all of them.
-/
namespace EzpFirmware.UserNvram
open Lib

def IPSEC_RULE : CStr := .ofString "ipsec_rule"

def IPSEC_RULE_NUM : CStr := .ofString "ipsec_rule_num"

/-- The size of `old` and `new`. -/
def RULE_LEN : ℕ := 1024

/-- The size of `tmp`, `tmp2` and `tmp3`. -/
def ATTR_LEN : ℕ := 64

/-- `ezplib_get_attr_val` to a buffer. -/
def attrIn (u : Unspecified) (bsize : ℕ) (ruleSet : CStr) (i : ℕ) (type : CStr) :
    Migration CStr := do
  let r ← ExceptT.mk (InMemory.ezplibGetAttrVal u ruleSet i type bsize)
  pure r.2

/-- `tmp[0] == '1'`. -/
def Flagged (tmp : CStr) : Prop := tmp.val.head? = some 0x31

instance (tmp : CStr) : Decidable (Flagged tmp) :=
  inferInstanceAs (Decidable (tmp.val.head? = some 0x31))

def authName (tmp tmp2 : CStr) : CStr :=
  if Flagged tmp then .ofString "md5" else if Flagged tmp2 then .ofString "sha1"
  else .ofString "md5"

def encryptName (tmp tmp2 tmp3 : CStr) : CStr :=
  if Flagged tmp2 then .ofString "3des" else if Flagged tmp3 then .ofString "aes"
  else if Flagged tmp then .ofString "des" else .ofString "3des"

def authFlags (tmp : CStr) : CStr :=
  if tmp = .ofString "md5" then .ofString "1^0^" else if tmp = .ofString "sha1" then
    .ofString "0^1^" else .ofString "1^1^"

def encryptFlags (other tmp : CStr) : CStr :=
  if tmp = .ofString "des" then .ofString "1^0^0^" else if tmp = .ofString "3des" then
    .ofString "0^1^0^" else if tmp = .ofString "aes" then .ofString "0^0^1^" else other

/-- What is printed in one go, with the reads in front of it. -/
inductive Piece where
  /-- The attributes between two positions, and a text. -/
  | span (start stop : ℕ) (tail : CStr)
  /-- `"%s^"` of an attribute. -/
  | attr (type : CStr)
  /-- The name for two flags. -/
  | auth (md5 sha1 : ℕ)
  /-- The name for three flags. -/
  | encrypt (des tripleDes aes : ℕ)
  /-- The flags for a name. -/
  | authFlags (type : CStr)
  | encryptFlags (type other : CStr)
  | text (t : CStr)

/-- The text of a piece, from reads of attributes by position and by name. -/
def Piece.print {m : Type → Type} [Monad m] (subrule : ℕ → ℕ → m CStr) (attrVal : CStr → m CStr) :
    Piece → m CStr
  | .span start stop tail => do
    let tmp ← subrule start stop
    pure (CStr.concat [tmp, tail])
  | .attr type => do
    let tmp ← attrVal type
    pure (CStr.concat [tmp, .ofString "^"])
  | .auth md5 sha1 => do
    let tmp ← subrule md5 md5
    let tmp2 ← subrule sha1 sha1
    pure (CStr.concat [authName tmp tmp2, .ofString "^"])
  | .encrypt des tripleDes aes => do
    let tmp ← subrule des des
    let tmp2 ← subrule tripleDes tripleDes
    let tmp3 ← subrule aes aes
    pure (CStr.concat [encryptName tmp tmp2 tmp3, .ofString "^"])
  | .authFlags type => do
    let tmp ← attrVal type
    pure (UserNvram.authFlags tmp)
  | .encryptFlags type other => do
    let tmp ← attrVal type
    pure (UserNvram.encryptFlags other tmp)
  | .text t => pure t

/-- The text of a piece for a rule in the set. -/
def Piece.run (u : Unspecified) (i : ℕ) : Piece → Migration CStr :=
  Piece.print (subruleIn u ATTR_LEN IPSEC_RULE i) (attrIn u ATTR_LEN IPSEC_RULE i)

/-- The prints of one round. -/
def printPieces (u : Unspecified) (i : ℕ) : List Piece → Cursor → Migration Cursor
  | [], c => pure c
  | p :: ps, c => do
    match c.put (← p.run u i) with
    | none => throw .overflow
    | some c => printPieces u i ps c

/-- One round of a loop. -/
def convertRule (u : Unspecified) (pieces : List Piece) (i : ℕ) (c : Cursor) :
    Migration Cursor := do
  let old ← ruleIn u RULE_LEN IPSEC_RULE i
  if old = CStr.empty then pure c.rewind
  else do
    let c ← printPieces u i pieces c.rewind
    let _ ← (ezplibReplaceRule u IPSEC_RULE i (CStr.read c.buf) : Api ℤ)
    pure c

/-- The loop `for (i = j = 0; i < rule_num; i++)` from round `i` on. -/
def convertFrom (u : Unspecified) (pieces : List Piece) : ℕ → ℕ → Cursor → Migration Cursor
  | 0, _, c => pure c
  | n + 1, i, c => do
    let c ← convertRule u pieces i c
    convertFrom u pieces n (i + 1) c

/-- A tunnel of the newer release. -/
def upPieces : List Piece := [.span 0 1 (.ofString "^"), .span 3 11 (.ofString "^"),
  .span 27 30 (.ofString "^"), .span 2 2 (.ofString "^"), .span 12 12 (.ofString "^"),
  .span 18 18 (.ofString "^"), .span 24 25 (.ofString "^"), .auth 13 14, .encrypt 15 16 17,
  .text (.ofString "dh2^"), .auth 19 20, .encrypt 21 22 23, .text (.ofString "dh2")]

/-- A tunnel of the older one. -/
def downPieces : List Piece := [.span 0 1 (.ofString "^"), .attr (.ofString "adv"),
  .span 2 10 (.ofString "^"), .attr (.ofString "phase1_mode"),
  .authFlags (.ofString "phase1_auth"),
  .encryptFlags (.ofString "phase1_encrypt") (.ofString "1^1^1^"), .attr (.ofString "phase1_id"),
  .authFlags (.ofString "phase2_auth"),
  .encryptFlags (.ofString "phase2_encrypt") (.ofString "0^0^0^"), .span 18 19 (.ofString "^"),
  .text (.ofString "0^"), .span 11 14 CStr.empty]

/-- The loop over the tunnels, with what is in `new` before. -/
def convertIpsec (u : Unspecified) (pieces : List Piece) (new : List UInt8) : Migration Unit := do
  let ruleNum := atoi (← (nvramSafeGet IPSEC_RULE_NUM : Api CStr))
  let _ ← convertFrom u pieces ruleNum.toNat 0 ⟨new, 0, 0⟩

/-- `fw_func_1_7_5_to_1_7_6`, as far as it is about tunnels. -/
def fwFunc175To176 (u : Unspecified) (new : List UInt8) : Migration Unit :=
  convertIpsec u upPieces new

/-- `fw_func_1_7_6_to_1_7_5`, as far as it is about tunnels. -/
def fwFunc176To175 (u : Unspecified) (new : List UInt8) : Migration Unit :=
  convertIpsec u downPieces new

/-! ## What is printed for a rule -/

/-- The names of the attributes, in the release that runs. -/
def ipsecNames : List CStr := ipsecRuleAttr.names

/-- The attribute of a rule under a name. -/
def attrNamed (r type : CStr) : CStr :=
  if type ∈ ipsecNames then (r.fields ATTR_SEP).getD (ipsecNames.idxOf type) CStr.empty
  else CStr.empty

/-- The text of a piece, from the rule itself. -/
def Piece.of (r : CStr) (p : Piece) : CStr :=
  Piece.print (m := Id) (fun start stop => joinAttrs (subrule r start stop))
    (fun type => (attrNamed r type).take (ATTR_LEN - 1)) p

/-- The rule that is made of a rule. -/
def converted (pieces : List Piece) (r : CStr) : CStr := CStr.concat (pieces.map (Piece.of r))

/-- The positions that are read for a piece. -/
def Piece.spans : Piece → List (ℕ × ℕ)
  | .span start stop _ => [(start, stop)]
  | .auth md5 sha1 => [(md5, md5), (sha1, sha1)]
  | .encrypt des tripleDes aes => [(des, des), (tripleDes, tripleDes), (aes, aes)]
  | .attr _ | .authFlags _ | .encryptFlags _ _ | .text _ => []

/-- What is read of a rule between two positions fits the buffer for it. -/
def SpanFits (r : CStr) (start stop : ℕ) : Prop :=
  (CStr.lines ATTR_SEP ATTR_SEP_ne (subrule r start stop)).len ≤ ATTR_LEN

instance (r : CStr) (start stop : ℕ) : Decidable (SpanFits r start stop) :=
  inferInstanceAs (Decidable (_ ≤ ATTR_LEN))

/-- Everything that is read by position fits. -/
def Piece.Fits (r : CStr) (p : Piece) : Prop := ∀ s ∈ p.spans, SpanFits r s.1 s.2

instance (r : CStr) (p : Piece) : Decidable (p.Fits r) :=
  inferInstanceAs (Decidable (∀ s ∈ p.spans, SpanFits r s.1 s.2))

/-- The texts of a piece that are not read. -/
def Piece.texts : Piece → List CStr
  | .span _ _ tail => [tail]
  | .encryptFlags _ other => [other]
  | .text t => [t]
  | .attr _ | .auth _ _ | .encrypt _ _ _ | .authFlags _ => []

/-- No text of a piece is longer. -/
def TEXT_LEN : ℕ := 6

/-- A piece that reads from the front to the back, and whose own texts are plain. -/
structure Piece.Sound (p : Piece) : Prop where
  ordered : ∀ s ∈ p.spans, s.1 ≤ s.2
  plain : ∀ t ∈ p.texts, RULE_SEP ∉ t.val ∧ PERCENT ∉ t.val
  short : ∀ t ∈ p.texts, t.len ≤ TEXT_LEN

section
variable {u : Unspecified} {M M' : Variables} {ruleSet text r type : CStr}
  {i start stop bsize : ℕ} {p : Piece} {pieces : List Piece} {c q : Cursor}

/-- What is read between two positions of a rule. -/
theorem Readable.subruleIn (h : Readable M ruleSet text)
    (hr : (text.fields RULE_SEP)[i]? = some r) (hsize : 0 < bsize) (hle : start ≤ stop) :
    runOn (subruleIn u bsize ruleSet i start stop) M =
      (if (CStr.lines ATTR_SEP ATTR_SEP_ne (subrule r start stop)).len ≤ bsize
        then .ok (joinAttrs (subrule r start stop)) else .error .overflow, M) := by
  have hget := h.getSubrule (u := u) hr hle (List.replicate bsize 0)
  rw [List.length_replicate] at hget
  rw [UserNvram.subruleIn, runOn_bind, runOn_mk, hget]
  split_ifs with hfit
  · obtain ⟨buf, hbuf, hread⟩ := printed_fits hsize hfit
    rw [hbuf, ← hread]
    rfl
  · rw [printed_over (not_le.mp hfit)]

theorem ipsecTable : ∃ v ∈ rules, v.name = IPSEC_RULE ∧ v.attr = ipsecRuleAttr :=
  ⟨rule "ipsec_rule" ipsecRuleAttr, by simp [rules], by decide, rfl⟩

theorem ipsecAttr : ∀ type ∈ ipsecNames, type ≠ CStr.empty ∧
    ipsecRuleAttr[ipsecNames.idxOf type]? = some (some ⟨type, .showValue⟩) := by decide +kernel

theorem ipsecEnded : none ∈ ipsecRuleAttr := by decide +kernel

/-- What is read of an attribute. A name that the table does not have gives nothing. -/
theorem Readable.attrIn (h : Readable M IPSEC_RULE text)
    (hr : (text.fields RULE_SEP)[i]? = some r) :
    runOn (attrIn u bsize IPSEC_RULE i type) M =
      (.ok ((attrNamed r type).take (bsize - 1)), M) := by
  obtain ⟨v, hv, hname, hattrs⟩ := ipsecTable
  have hsame := onMap_of_confined (confined_attrVal u IPSEC_RULE i type bsize) M
  have hrun {n : ℤ} {w : CStr}
      (hget : (onMap (InMemory.ezplibGetAttrVal u IPSEC_RULE i type bsize) M).1 = .ok (n, w)) :
      runOn (UserNvram.attrIn u bsize IPSEC_RULE i type) M = (.ok w, M) := by
    rw [UserNvram.attrIn, runOn_bind, runOn_mk, hsame, hget]
    rfl
  have hnothing : CStr.empty.take (bsize - 1) = CStr.empty := Subtype.ext List.take_nil
  by_cases htype0 : type = CStr.empty
  · have hnot : type ∉ ipsecNames := fun hmem => (ipsecAttr type hmem).1 htype0
    rw [attrNamed, if_neg hnot, hnothing]
    apply hrun
    rw [InMemory.ezplibGetAttrVal, if_pos (.inr htype0)]
    rfl
  · have hscan : (onMap (InMemory.ezplibGetAttrVal u IPSEC_RULE i type bsize) M).1 =
        InMemory.shown bsize (InMemory.attrScan type ipsecRuleAttr
          ((r.fields ATTR_SEP).take MAX_ATTR_NUM) 0) := by
      have hpos : ¬ ((r.len : ℕ) : ℤ) < 0 := by omega
      rw [InMemory.ezplibGetAttrVal, if_neg (not_or.mpr ⟨h.name, htype0⟩), onMap_bind,
        h.getRule i h.fits, hr]
      dsimp only
      rw [if_neg hpos, InMemory.ruleScan_rules hv hname, hattrs]
      rfl
    by_cases hmem : type ∈ ipsecNames
    · have hindex : ipsecNames.idxOf type < MAX_ATTR_NUM :=
        (List.idxOf_lt_length_of_mem hmem).trans_le (by decide)
      have htake : ((r.fields ATTR_SEP).take MAX_ATTR_NUM)[ipsecRuleAttr.names.idxOf type]? =
          (r.fields ATTR_SEP)[ipsecNames.idxOf type]? := List.getElem?_take_of_lt hindex
      rw [InMemory.attrScan_found hmem (ipsecAttr type hmem).2, htake] at hscan
      rw [attrNamed, if_pos hmem, List.getD_eq_getElem?_getD]
      cases hq : (r.fields ATTR_SEP)[ipsecNames.idxOf type]? with
      | none =>
        rw [hq] at hscan
        rw [Option.getD_none, hnothing]
        exact hrun hscan
      | some w =>
        rw [hq] at hscan
        exact hrun hscan
    · obtain ⟨res, hres⟩ : ∃ res, InMemory.attrScan type ipsecRuleAttr
          ((r.fields ATTR_SEP).take MAX_ATTR_NUM) 0 = .ok res :=
        InMemory.attrScan_isOk_iff.mpr (.inl ipsecEnded)
      have hfind := InMemory.attrScan_ok hres
      have hnone : (ipsecRuleAttr.names.zip ((r.fields ATTR_SEP).take MAX_ATTR_NUM)).find?
          (fun a => a.1 = type) = none := by
        apply List.find?_eq_none.mpr
        intro a ha
        have hname : a.1 ≠ type := fun h => hmem (h ▸ (List.of_mem_zip ha).1)
        simpa using hname
      rw [hnone, Option.map_eq_none_iff] at hfind
      subst hfind
      rw [hres] at hscan
      rw [attrNamed, if_neg hmem, hnothing]
      exact hrun hscan

theorem Readable.span_fits (h : Readable M IPSEC_RULE text)
    (hr : (text.fields RULE_SEP)[i]? = some r) (hle : start ≤ stop) (hfit : SpanFits r start stop) :
    runOn (UserNvram.subruleIn u ATTR_LEN IPSEC_RULE i start stop) M =
      (.ok (joinAttrs (subrule r start stop)), M) := by
  rw [SpanFits] at hfit
  rw [h.subruleIn hr (by decide) hle, if_pos hfit]

theorem Readable.span_over (h : Readable M IPSEC_RULE text)
    (hr : (text.fields RULE_SEP)[i]? = some r) (hle : start ≤ stop)
    (hover : ¬ SpanFits r start stop) {α : Type} (f : CStr → Migration α) :
    runOn (UserNvram.subruleIn u ATTR_LEN IPSEC_RULE i start stop >>= f) M = (.error .overflow, M) := by
  rw [SpanFits] at hover
  rw [runOn_bind, h.subruleIn hr (by decide) hle, if_neg hover]

/-- A piece is the text that the rule has for it, if that fits. -/
theorem Readable.piece_fits (h : Readable M IPSEC_RULE text)
    (hr : (text.fields RULE_SEP)[i]? = some r) (hp : p.Sound) (hfit : p.Fits r) :
    runOn (p.run u i) M = (.ok (p.of r), M) := by
  have hattr {type : CStr} : runOn (UserNvram.attrIn u ATTR_LEN IPSEC_RULE i type) M = _ := h.attrIn hr
  cases p with
  | span start stop tail =>
    have hspan := hfit (start, stop) List.mem_cons_self
    exact runOn_bind_ok (h.span_fits hr (hp.ordered _ List.mem_cons_self) hspan) _
  | attr type => exact runOn_bind_ok hattr _
  | auth md5 sha1 =>
    simp only [Piece.Fits, Piece.spans, List.forall_mem_cons] at hfit
    obtain ⟨h1, h2, -⟩ := hfit
    exact (runOn_bind_ok (h.span_fits hr le_rfl h1) _).trans
      (runOn_bind_ok (h.span_fits hr le_rfl h2) _)
  | encrypt des tripleDes aes =>
    simp only [Piece.Fits, Piece.spans, List.forall_mem_cons] at hfit
    obtain ⟨h1, h2, h3, -⟩ := hfit
    exact (runOn_bind_ok (h.span_fits hr le_rfl h1) _).trans
      ((runOn_bind_ok (h.span_fits hr le_rfl h2) _).trans
        (runOn_bind_ok (h.span_fits hr le_rfl h3) _))
  | authFlags type => exact runOn_bind_ok hattr _
  | encryptFlags type other => exact runOn_bind_ok hattr _
  | text t => rfl

/-- A piece for which there is too much to read touches what is behind a buffer. -/
theorem Readable.piece_over (h : Readable M IPSEC_RULE text)
    (hr : (text.fields RULE_SEP)[i]? = some r) (hp : p.Sound) (hover : ¬ p.Fits r) :
    runOn (p.run u i) M = (.error .overflow, M) := by
  cases p with
  | span start stop tail =>
    apply h.span_over hr (hp.ordered _ List.mem_cons_self)
    simpa [Piece.Fits, Piece.spans] using hover
  | auth md5 sha1 =>
    by_cases h1 : SpanFits r md5 md5
    · apply (runOn_bind_ok (h.span_fits hr le_rfl h1) _).trans
      apply h.span_over hr le_rfl
      simpa [Piece.Fits, Piece.spans, h1] using hover
    · exact h.span_over hr le_rfl h1 _
  | encrypt des tripleDes aes =>
    by_cases h1 : SpanFits r des des
    · apply (runOn_bind_ok (h.span_fits hr le_rfl h1) _).trans
      by_cases h2 : SpanFits r tripleDes tripleDes
      · apply (runOn_bind_ok (h.span_fits hr le_rfl h2) _).trans
        apply h.span_over hr le_rfl
        simpa [Piece.Fits, Piece.spans, h1, h2] using hover
      · exact h.span_over hr le_rfl h2 _
    · exact h.span_over hr le_rfl h1 _
  | attr type | authFlags type | encryptFlags type other | text t =>
    exact absurd (fun s hs => absurd hs List.not_mem_nil) hover

/-- The prints of a round lead to a place if the pieces fit and can be put there. -/
theorem Readable.printPieces_iff (h : Readable M IPSEC_RULE text)
    (hr : (text.fields RULE_SEP)[i]? = some r) (hps : ∀ p ∈ pieces, p.Sound) :
    runOn (printPieces u i pieces c) M = (.ok q, M') ↔
      (∀ p ∈ pieces, p.Fits r) ∧ Cursor.putAll (pieces.map (Piece.of r)) c = some q ∧ M' = M := by
  induction pieces generalizing c with
  | nil => simp [printPieces, Cursor.putAll, eq_comm (a := M)]
  | cons p ps ih =>
    have hp := hps p List.mem_cons_self
    have hrest (c : Cursor) := ih (c := c) fun p hp => hps p (List.mem_cons_of_mem _ hp)
    rw [List.forall_mem_cons]
    by_cases hfit : p.Fits r
    · rw [printPieces, runOn_bind_ok (h.piece_fits hr hp hfit), List.map_cons, Cursor.putAll]
      cases c.put (p.of r) with
      | none => exact iff_of_false (fun h => by cases h) fun h => by cases h.2.1
      | some c =>
        dsimp only
        rw [hrest c, and_iff_right hfit]
    · rw [printPieces, runOn_bind, h.piece_over hr hp hfit]
      exact iff_of_false (fun h => by cases h) fun h => hfit h.1.1

/-! ## What the texts are like -/

theorem subrule_bytes (hr : ∀ b ∈ r.val, PlainByte b) (start stop : ℕ) :
    ∀ b ∈ (joinAttrs (subrule r start stop)).val, PlainByte b := by
  have hplain := (plainByte_iff r).mp hr
  intro b hb
  rcases CStr.mem_join hb with rfl | ⟨f, hf, hb⟩
  · exact ⟨by decide, by decide⟩
  · exact (plainByte_iff f).mpr (attr_bytes hplain.1 hplain.2 f (subrule_sublist.subset hf)) b hb

theorem attrNamed_bytes (hr : ∀ b ∈ r.val, PlainByte b) :
    ∀ b ∈ (attrNamed r type).val, PlainByte b := by
  have hplain := (plainByte_iff r).mp hr
  intro b hb
  rw [attrNamed, List.getD_eq_getElem?_getD] at hb
  split_ifs at hb
  · cases hq : (r.fields ATTR_SEP)[ipsecNames.idxOf type]? with
    | none =>
      rw [hq] at hb
      exact absurd hb List.not_mem_nil
    | some f =>
      rw [hq] at hb
      exact (plainByte_iff f).mpr (attr_bytes hplain.1 hplain.2 f (List.mem_of_getElem? hq)) b hb
  · exact absurd hb List.not_mem_nil

/-- The texts that name algorithms or give flags. -/
def algorithmTexts : List CStr := ["md5", "sha1", "des", "3des", "aes", "1^0^", "0^1^", "1^1^",
  "1^0^0^", "0^1^0^", "0^0^1^", "^"].map CStr.ofString

theorem algorithmTexts_plain : ∀ t ∈ algorithmTexts,
    (RULE_SEP ∉ t.val ∧ PERCENT ∉ t.val) ∧ t.len ≤ TEXT_LEN := by decide +kernel

theorem authName_mem (tmp tmp2 : CStr) :
    authName tmp tmp2 = .ofString "md5" ∨ authName tmp tmp2 = .ofString "sha1" := by
  rw [authName]
  split_ifs <;> simp

theorem encryptName_mem (tmp tmp2 tmp3 : CStr) :
    encryptName tmp tmp2 tmp3 = .ofString "des" ∨ encryptName tmp tmp2 tmp3 = .ofString "3des" ∨
      encryptName tmp tmp2 tmp3 = .ofString "aes" := by
  rw [encryptName]
  split_ifs <;> simp

theorem authFlags_mem (tmp : CStr) : authFlags tmp ∈ algorithmTexts := by
  rw [authFlags]
  split_ifs <;> simp [algorithmTexts]

theorem encryptFlags_mem (other tmp : CStr) :
    encryptFlags other tmp = other ∨ encryptFlags other tmp ∈ algorithmTexts := by
  rw [encryptFlags]
  split_ifs
  · exact .inr (by simp [algorithmTexts])
  · exact .inr (by simp [algorithmTexts])
  · exact .inr (by simp [algorithmTexts])
  · exact .inl rfl

theorem name_mem {t : CStr} (h : t = .ofString "md5" ∨ t = .ofString "sha1" ∨
    t = .ofString "des" ∨ t = .ofString "3des" ∨ t = .ofString "aes") : t ∈ algorithmTexts := by
  rcases h with rfl | rfl | rfl | rfl | rfl <;> simp [algorithmTexts]

theorem concat_bytes {P : UInt8 → Prop} {s t : CStr} (hs : ∀ b ∈ s.val, P b)
    (ht : ∀ b ∈ t.val, P b) : ∀ b ∈ (CStr.concat [s, t]).val, P b := by
  intro b hb
  rw [CStr.concat, CStr.concat_singleton] at hb
  exact (List.mem_append.mp hb).elim (hs b) (ht b)

theorem concat_len (s t : CStr) : (CStr.concat [s, t]).len = s.len + t.len := by
  rw [CStr.concat, CStr.concat_singleton, CStr.append_len]

/-- The text of a piece is plain, for a plain rule. -/
theorem Piece.of_bytes (hp : p.Sound) (hr : ∀ b ∈ r.val, PlainByte b) :
    ∀ b ∈ (p.of r).val, PlainByte b := by
  have htext : ∀ t ∈ algorithmTexts, ∀ b ∈ t.val, PlainByte b := fun t ht =>
    (plainByte_iff t).mpr (algorithmTexts_plain t ht).1
  have hsep := htext (.ofString "^") (by simp [algorithmTexts])
  have htaken : ∀ type, ∀ b ∈ ((attrNamed r type).take (ATTR_LEN - 1)).val, PlainByte b :=
    fun type b hb => attrNamed_bytes hr b (List.mem_of_mem_take hb)
  cases p with
  | span start stop tail =>
    exact concat_bytes (subrule_bytes hr start stop)
      ((plainByte_iff tail).mpr (hp.plain tail List.mem_cons_self))
  | attr type => exact concat_bytes (htaken type) hsep
  | auth md5 sha1 =>
    exact concat_bytes (htext _ (name_mem ((authName_mem _ _).imp_right .inl))) hsep
  | encrypt des tripleDes aes =>
    exact concat_bytes (htext _ (name_mem (.inr (.inr (encryptName_mem _ _ _))))) hsep
  | authFlags type => exact htext _ (authFlags_mem _)
  | encryptFlags type other =>
    change ∀ b ∈ (UserNvram.encryptFlags other _).val, PlainByte b
    rcases encryptFlags_mem other ((attrNamed r type).take (ATTR_LEN - 1)) with h | h
    · rw [h]
      exact (plainByte_iff other).mpr (hp.plain other List.mem_cons_self)
    · exact htext _ h
  | text t => exact (plainByte_iff t).mpr (hp.plain t List.mem_cons_self)

/-- No text of a piece is long. -/
theorem Piece.of_len (hp : p.Sound) (hfit : p.Fits r) : (p.of r).len ≤ ATTR_LEN + TEXT_LEN := by
  have htext : ∀ t ∈ algorithmTexts, t.len ≤ TEXT_LEN := fun t ht => (algorithmTexts_plain t ht).2
  have hsep : (CStr.ofString "^").len = 1 := by decide
  have htaken : ∀ type, ((attrNamed r type).take (ATTR_LEN - 1)).len ≤ ATTR_LEN - 1 :=
    fun type => List.length_take_le _ _
  have hsizes : ATTR_LEN = 64 ∧ TEXT_LEN = 6 := ⟨rfl, rfl⟩
  cases p with
  | span start stop tail =>
    have htail := hp.short tail List.mem_cons_self
    have hspan : (joinAttrs (subrule r start stop)).len ≤ ATTR_LEN := by
      have hlines := hfit (start, stop) List.mem_cons_self
      rw [SpanFits] at hlines
      dsimp only at hlines
      by_cases hnil : subrule r start stop = []
      · rw [hnil]
        exact Nat.zero_le _
      · rw [CStr.lines_len _ hnil] at hlines
        exact Nat.le_of_succ_le hlines
    change (CStr.concat [joinAttrs (subrule r start stop), tail]).len ≤ _
    rw [concat_len]
    exact Nat.add_le_add hspan htail
  | attr type =>
    change (CStr.concat [(attrNamed r type).take (ATTR_LEN - 1), .ofString "^"]).len ≤ _
    have hle := htaken type
    rw [concat_len, hsep]
    omega
  | auth md5 sha1 =>
    change (CStr.concat [authName _ _, .ofString "^"]).len ≤ _
    have hle : ∀ tmp tmp2, (authName tmp tmp2).len ≤ TEXT_LEN := fun tmp tmp2 =>
      htext _ (name_mem ((authName_mem tmp tmp2).imp_right .inl))
    rw [concat_len, hsep]
    exact (Nat.add_le_add_right (hle _ _) 1).trans (by omega)
  | encrypt des tripleDes aes =>
    change (CStr.concat [encryptName _ _ _, .ofString "^"]).len ≤ _
    have hle : ∀ tmp tmp2 tmp3, (encryptName tmp tmp2 tmp3).len ≤ TEXT_LEN :=
      fun tmp tmp2 tmp3 => htext _ (name_mem (.inr (.inr (encryptName_mem tmp tmp2 tmp3))))
    rw [concat_len, hsep]
    exact (Nat.add_le_add_right (hle _ _ _) 1).trans (by omega)
  | authFlags type => exact (htext _ (authFlags_mem _)).trans (by omega)
  | encryptFlags type other =>
    change (UserNvram.encryptFlags other _).len ≤ _
    rcases encryptFlags_mem other ((attrNamed r type).take (ATTR_LEN - 1)) with h | h
    · rw [h]
      exact (hp.short other List.mem_cons_self).trans (by omega)
    · exact (htext _ h).trans (by omega)
  | text t => exact (hp.short t List.mem_cons_self).trans (by omega)

end

end EzpFirmware.UserNvram
