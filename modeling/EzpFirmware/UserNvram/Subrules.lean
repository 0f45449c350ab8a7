import EzpFirmware.Lib.Printing
import EzpFirmware.UserNvram.AttrEdits

/-! # A run of attributes

`ezplib_get_subrule` prints the attributes between two positions to a buffer one
by one, each with a separator behind it, and takes the last separator off again.
Its answer is 0 whether or not they fit.
-/
namespace EzpFirmware.UserNvram
open Lib

/-- An attribute and a separator. -/
def attrWord (f : CStr) : CStr := CStr.glue ATTR_SEP ATTR_SEP_ne f CStr.empty

/-- The loop of `ezplib_get_subrule` from attribute `i` on. -/
def subruleLoop (start stop : ℤ) : List CStr → ℤ → Print → Except Fault Print
  | [], _, p => .ok p
  | ptr :: ptrs, i, p =>
    if start ≤ i ∧ i ≤ stop then
      match p.put (attrWord ptr) with
      | none => .error .overflow
      | some p => subruleLoop start stop ptrs (i + 1) p
    else subruleLoop start stop ptrs (i + 1) p

/-- `if (j > 0 && buf[j-1]) buf[j-1] = '\0'`. -/
def chopLast (p : Print) : Except Fault (List UInt8) :=
  if p.pos = 0 then .ok p.buf
  else match p.buf[p.pos - 1]? with
    | none => .error .overflow
    | some b => .ok (if b = 0 then p.buf else p.buf.set (p.pos - 1) 0)

/-- `ezplib_get_subrule` with a buffer: what it returns, and the buffer. An access behind the buffer
is a fault. -/
def ezplibGetSubrule (u : Unspecified) (ruleSet : CStr) (nth start stop : ℤ) (buf : List UInt8) :
    Api (Except Fault (ℤ × List UInt8)) :=
  if ruleSet = CStr.empty ∨ start > stop then pure (.ok (EZPLIB_INVALID, buf))
  else do
    let r ← ezplibGetRule u ruleSet nth EZPLIB_BUF_LEN
    let zeros := List.replicate buf.length 0
    if r.1 < 0 then pure (.ok (r.1, zeros))
    else
      match subruleLoop start stop ((r.2.fields ATTR_SEP).take MAX_ATTR_NUM) 0 ⟨zeros, 0⟩ with
      | .error e => pure (.error e)
      | .ok p =>
        match chopLast p with
        | .error e => pure (.error e)
        | .ok buf => pure (.ok (0, buf))

/-- The attributes of a rule between two positions. -/
def subrule (r : CStr) (start stop : ℕ) : List CStr :=
  (((r.fields ATTR_SEP).take MAX_ATTR_NUM).take (stop + 1)).drop start

/-- What a call should do: nothing outside the buffer is touched, attributes that fit with one more
separator are what the buffer holds, and others are an error. -/
structure GetsSubrule (r : CStr) (start stop bsize : ℕ) (call : Except Fault (ℤ × List UInt8)) :
    Prop where
  inside : ∃ a, call = .ok a
  exact : (joinAttrs (subrule r start stop)).len + 1 < bsize →
    ∀ a, call = .ok a → CStr.read a.2 = joinAttrs (subrule r start stop)
  error : ¬ (joinAttrs (subrule r start stop)).len + 1 < bsize → ∀ a, call = .ok a → a.1 < 0

/-! ## The loop prints the attributes between the positions -/

section
variable {start stop : ℕ}

/-- From attribute `i` on, the loop prints those between the positions that are left. -/
theorem subruleLoop_eq (hle : start ≤ stop) (ptrs : List CStr) (i : ℕ) (p : Print) :
    subruleLoop start stop ptrs i p =
      match Print.putAll (((ptrs.take (stop + 1 - i)).drop (start - i)).map attrWord) p with
      | none => .error .overflow
      | some p => .ok p := by
  induction ptrs generalizing i p with
  | nil => simp [subruleLoop, Print.putAll]
  | cons ptr ptrs ih =>
    have hnext : ((i : ℤ) + 1) = (i + 1 : ℕ) := by omega
    rw [subruleLoop, hnext]
    by_cases hin : start ≤ i ∧ i ≤ stop
    · have htake : stop + 1 - i = (stop + 1 - (i + 1)) + 1 := by omega
      have hdrop : start - i = 0 := by omega
      have hdrop' : start - (i + 1) = 0 := by omega
      rw [if_pos (by omega), htake, hdrop, List.take_succ_cons, List.drop_zero, List.map_cons,
        Print.putAll]
      cases p.put (attrWord ptr) with
      | none => rfl
      | some q =>
        have hrest := ih (i + 1) q
        rw [hdrop', List.drop_zero] at hrest
        exact hrest
    · rw [if_neg (by omega), ih]
      rcases not_and_or.mp hin with hlow | hhigh
      · have htake : stop + 1 - i = (stop + 1 - (i + 1)) + 1 := by omega
        have hdrop : start - i = (start - (i + 1)) + 1 := by omega
        rw [htake, hdrop, List.take_succ_cons, List.drop_succ_cons]
      · have htake : stop + 1 - i = 0 := by omega
        have htake' : stop + 1 - (i + 1) = 0 := by omega
        rw [htake, htake', List.take_zero, List.take_zero, List.drop_nil, List.drop_nil]

/-- What the prints and the check behind them leave. -/
def printed (fs : List CStr) (bsize : ℕ) : Except Fault (List UInt8) :=
  match Print.putAll (fs.map attrWord) ⟨List.replicate bsize 0, 0⟩ with
  | none => .error .overflow
  | some p => chopLast p

variable {fs : List CStr} {bsize : ℕ}

theorem concat_attrWord (fs : List CStr) :
    CStr.concat (fs.map attrWord) = CStr.lines ATTR_SEP ATTR_SEP_ne fs := CStr.concat_glue _ fs

/-- A last separator that was printed is taken off. -/
theorem printed_short (hfs : fs ≠ []) (hfit : (joinAttrs fs).len + 1 < bsize) :
    ∃ buf, printed fs bsize = .ok buf ∧ CStr.read buf = joinAttrs fs := by
  have hlines : CStr.lines ATTR_SEP ATTR_SEP_ne fs =
      CStr.glue ATTR_SEP ATTR_SEP_ne (joinAttrs fs) CStr.empty := CStr.lines_eq _ hfs
  have hsize : CStr.empty.len + (CStr.concat (fs.map attrWord)).len <
      (⟨List.replicate bsize 0, 0⟩ : Print).buf.length := by
    rw [concat_attrWord, hlines, CStr.glue_len, CStr.empty_len, List.length_replicate]
    omega
  obtain ⟨q, hall, hshows, -⟩ := (Print.shows_zeros (by omega)).putAll hsize
  rw [CStr.empty_append, concat_attrWord, hlines] at hshows
  obtain ⟨rest, hrest⟩ := hshows.text
  have hpos : q.pos = (joinAttrs fs).len + 1 := by
    rw [hshows.pos, CStr.glue_len]
    rfl
  have hbuf : q.buf = (joinAttrs fs).val ++ ATTR_SEP :: 0 :: rest := by
    rw [← hrest]
    simp [CStr.stored, CStr.glue, CStr.empty]
  have hfront : (joinAttrs fs).val.length ≤ (joinAttrs fs).len := le_rfl
  have hzero : (joinAttrs fs).len - (joinAttrs fs).val.length = 0 := Nat.sub_self _
  have hlast : q.buf[q.pos - 1]? = some ATTR_SEP := by
    rw [hpos, hbuf, Nat.add_sub_cancel, List.getElem?_append_right hfront, hzero]
    rfl
  have hset : q.buf.set (q.pos - 1) 0 = (joinAttrs fs).stored ++ 0 :: rest := by
    rw [hpos, hbuf, Nat.add_sub_cancel, List.set_append_right _ _ hfront, hzero, CStr.stored,
      List.append_assoc]
    rfl
  refine ⟨q.buf.set (q.pos - 1) 0, ?_, ?_⟩
  · have hsep : ATTR_SEP ≠ 0 := by decide
    rw [printed, hall]
    dsimp only
    rw [chopLast, if_neg (by omega), hlast]
    dsimp only
    rw [if_neg hsep]
  · rw [hset, CStr.read_stored_append]

/-- One that was cut at the end of the buffer is not there. -/
theorem printed_full (hfs : fs ≠ []) (hfit : (joinAttrs fs).len + 1 = bsize) :
    printed fs bsize = .ok (joinAttrs fs).stored := by
  have hlines : CStr.concat (fs.map attrWord) =
      CStr.glue ATTR_SEP ATTR_SEP_ne (joinAttrs fs) CStr.empty :=
    (concat_attrWord fs).trans (CStr.lines_eq _ hfs)
  have hsplit : fs.map attrWord = fs.dropLast.map attrWord ++ [attrWord (fs.getLast hfs)] := by
    conv_lhs => rw [← List.dropLast_append_getLast hfs]
    simp
  have hword : (attrWord (fs.getLast hfs)).len = (fs.getLast hfs).len + 1 := by
    rw [attrWord, CStr.glue_len]
    rfl
  have htotal : (CStr.concat (fs.dropLast.map attrWord)).len + (attrWord (fs.getLast hfs)).len =
      bsize := by
    have hlen := congrArg CStr.len hlines
    rwa [hsplit, CStr.concat_append, CStr.concat_singleton, CStr.append_len, CStr.glue_len,
      CStr.empty_len, Nat.add_zero, hfit] at hlen
  have hsize : CStr.empty.len + (CStr.concat (fs.dropLast.map attrWord)).len <
      (⟨List.replicate bsize 0, 0⟩ : Print).buf.length := by
    rw [CStr.empty_len, List.length_replicate]
    omega
  obtain ⟨q, hall, hshows, hlen⟩ := (Print.shows_zeros (by omega)).putAll hsize
  rw [CStr.empty_append] at hshows
  rw [List.length_replicate] at hlen
  have hput := hshows.put_cut (w := attrWord (fs.getLast hfs)) (by omega)
  have htext : ((CStr.concat (fs.dropLast.map attrWord)).append
      (attrWord (fs.getLast hfs))).take (bsize - 1) = joinAttrs fs := by
    rw [← CStr.concat_singleton (attrWord (fs.getLast hfs)), ← CStr.concat_append, ← hsplit,
      hlines, ← hfit, Nat.add_sub_cancel]
    exact Subtype.ext (List.take_left' rfl)
  rw [hlen, htext, htotal] at hput
  have hfront : (joinAttrs fs).val.length ≤ (joinAttrs fs).len := le_rfl
  have hzero : (joinAttrs fs).stored[bsize - 1]? = some 0 := by
    rw [← hfit, Nat.add_sub_cancel, CStr.stored, List.getElem?_append_right hfront]
    simp [CStr.len]
  have hne : bsize ≠ 0 := by omega
  rw [printed, hsplit, Print.putAll_append, hall, Option.bind_some, Print.putAll, hput]
  dsimp only [Print.putAll]
  rw [chopLast, if_neg hne, hzero]
  rfl

/-- A text that is longer than the buffer leads behind it. -/
theorem printed_over (hover : bsize < (CStr.lines ATTR_SEP ATTR_SEP_ne fs).len) :
    printed fs bsize = .error .overflow := by
  rw [printed]
  cases hall : Print.putAll (fs.map attrWord) ⟨List.replicate bsize 0, 0⟩ with
  | none => rfl
  | some q =>
    obtain ⟨hpos, hlen⟩ := Print.putAll_size hall
    rw [concat_attrWord] at hpos
    rw [List.length_replicate] at hlen
    have hbehind : q.buf[q.pos - 1]? = none := by
      rw [List.getElem?_eq_none_iff, hlen]
      omega
    dsimp only
    rw [chopLast, if_neg (by omega), hbehind]

theorem lines_le_joinAttrs (fs : List CStr) :
    (CStr.lines ATTR_SEP ATTR_SEP_ne fs).len ≤ (joinAttrs fs).len + 1 := by
  by_cases hfs : fs = []
  · subst hfs
    decide
  · exact (CStr.lines_len _ hfs).le

/-- The buffer holds attributes that fit with the separators between them. -/
theorem printed_fits (hsize : 0 < bsize)
    (hfit : (CStr.lines ATTR_SEP ATTR_SEP_ne fs).len ≤ bsize) :
    ∃ buf, printed fs bsize = .ok buf ∧ CStr.read buf = joinAttrs fs := by
  by_cases hfs : fs = []
  · subst hfs
    exact ⟨_, rfl, (Print.shows_zeros hsize).read⟩
  · have hlines : (CStr.lines ATTR_SEP ATTR_SEP_ne fs).len = (joinAttrs fs).len + 1 :=
      CStr.lines_len _ hfs
    rcases (hlines ▸ hfit).lt_or_eq with hlt | heq
    · exact printed_short hfs hlt
    · refine ⟨_, printed_full hfs heq, ?_⟩
      have hread := CStr.read_stored_append (joinAttrs fs) []
      rwa [List.append_nil] at hread

/-! ## The call -/

variable {u : Unspecified} {M : Variables} {ruleSet text r : CStr} {nth : ℕ}

/-- The call prints the attributes of what `ezplib_get_rule` gives. -/
theorem getSubrule_of_getRule (hname : ruleSet ≠ CStr.empty) {len : ℕ}
    (hget : onMap (ezplibGetRule u ruleSet nth EZPLIB_BUF_LEN) M = (((len : ℤ), r), M))
    (hle : start ≤ stop) (buf : List UInt8) :
    onMap (ezplibGetSubrule u ruleSet nth start stop buf) M =
      (match printed (subrule r start stop) buf.length with
        | .error e => .error e
        | .ok buf => .ok (0, buf), M) := by
  have hargs : ¬ (ruleSet = CStr.empty ∨ (start : ℤ) > stop) := not_or.mpr ⟨hname, by omega⟩
  have hpos : ¬ ((len : ℕ) : ℤ) < 0 := not_lt.mpr (Int.natCast_nonneg _)
  have hloop := subruleLoop_eq hle ((r.fields ATTR_SEP).take MAX_ATTR_NUM) 0
    ⟨List.replicate buf.length 0, 0⟩
  rw [Nat.sub_zero, Nat.sub_zero, Int.natCast_zero] at hloop
  rw [ezplibGetSubrule, if_neg hargs, onMap_bind, hget]
  dsimp only
  rw [if_neg hpos, hloop, printed]
  change onMap (match (match Print.putAll ((subrule r start stop).map attrWord) _ with
    | none => .error .overflow
    | some p => .ok p : Except Fault Print) with
    | .error e => _
    | .ok p => _) M = _
  cases Print.putAll ((subrule r start stop).map attrWord) ⟨List.replicate buf.length 0, 0⟩ with
  | none => rfl
  | some p =>
    dsimp only
    cases chopLast p <;> rfl

/-- On a readable set the call prints the attributes of the rule. -/
theorem Readable.getSubrule (h : Readable M ruleSet text)
    (hr : (text.fields RULE_SEP)[nth]? = some r) (hle : start ≤ stop) (buf : List UInt8) :
    onMap (ezplibGetSubrule u ruleSet nth start stop buf) M =
      (match printed (subrule r start stop) buf.length with
        | .error e => .error e
        | .ok buf => .ok (0, buf), M) := by
  have hget := h.getRule (u := u) nth h.fits
  rw [hr] at hget
  exact getSubrule_of_getRule h.name hget hle buf

end

/-- The call is right exactly for a set that can be read if the attributes fit with one more
separator, and for any other set if they are no text or do not fit. -/
theorem ezplibGetSubrule_gets_iff (u : Unspecified) (M : Variables) (ruleSet text r : CStr)
    (nth start stop : ℕ) (buf : List UInt8) (h : Stored M ruleSet text)
    (hr : (text.fields RULE_SEP)[nth]? = some r) (hle : start ≤ stop) (hbuf : 0 < buf.length) :
    GetsSubrule r start stop buf.length
        (onMap (ezplibGetSubrule u ruleSet nth start stop buf) M).1 ↔
      text.len < EZPLIB_BUF_LEN ∧ (joinAttrs (subrule r start stop)).len + 1 < buf.length ∨
        EZPLIB_BUF_LEN ≤ text.len ∧ (joinAttrs (subrule r start stop) = CStr.empty ∨
          buf.length ≤ (joinAttrs (subrule r start stop)).len + 1) := by
  by_cases hfits : text.len < EZPLIB_BUF_LEN
  · simp only [hfits, not_le.mpr hfits, true_and, false_and, or_false]
    rw [(h.readable hfits).getSubrule hr hle]
    by_cases hroom : (joinAttrs (subrule r start stop)).len + 1 < buf.length
    · obtain ⟨out, hout, hread⟩ := printed_fits hbuf ((lines_le_joinAttrs _).trans hroom.le)
      rw [hout]
      apply iff_of_true _ hroom
      constructor
      case inside => exact ⟨_, rfl⟩
      case exact =>
        intro _ a ha
        cases ha
        exact hread
      case error => exact fun hno => absurd hroom hno
    · apply iff_of_false _ hroom
      intro hcall
      obtain ⟨a, ha⟩ := hcall.inside
      have hneg := hcall.error hroom a ha
      cases hout : printed (subrule r start stop) buf.length with
      | error e =>
        rw [hout] at ha
        cases ha
      | ok out =>
        rw [hout] at ha
        cases ha
        exact absurd hneg (lt_irrefl 0)
  · have hlong : EZPLIB_BUF_LEN ≤ text.len := not_lt.mp hfits
    have hargs : ¬ (ruleSet = CStr.empty ∨ (start : ℤ) > stop) := not_or.mpr ⟨h.name, by omega⟩
    have hneg : EZPLIB_VAL_TRUNC < 0 := by decide
    have hcall : (onMap (ezplibGetSubrule u ruleSet nth start stop buf) M).1 =
        .ok (EZPLIB_VAL_TRUNC, List.replicate buf.length 0) := by
      rw [ezplibGetSubrule, if_neg hargs, onMap_bind, getRule_long h.name h.stored hlong]
      dsimp only
      rw [if_pos hneg]
      rfl
    have hread : CStr.read (List.replicate buf.length 0) = CStr.empty :=
      (Print.shows_zeros hbuf).read
    simp only [hfits, hlong, true_and, false_and, false_or]
    rw [hcall]
    constructor
    · intro hget
      rcases lt_or_ge ((joinAttrs (subrule r start stop)).len + 1) buf.length with hroom | hfull
      · have hexact := hget.exact hroom _ rfl
        rw [hread] at hexact
        exact .inl hexact.symm
      · exact .inr hfull
    · intro hcond
      constructor
      case inside => exact ⟨_, rfl⟩
      case exact =>
        intro hroom a ha
        cases ha
        rw [hread]
        exact (hcond.resolve_right (not_le.mpr hroom)).symm
      case error =>
        intro _ a ha
        cases ha
        exact hneg

theorem getsSubrule_two : GetsSubrule (.ofString "a^b^c") 1 2 8
    (onMap (ezplibGetSubrule clean (.ofString "fr_rule") (0 : ℕ) (1 : ℕ) (2 : ℕ)
      (List.replicate 8 1)) (oneSet "fr_rule" (.ofString "a^b^c"))).1 :=
  (ezplibGetSubrule_gets_iff clean (oneSet "fr_rule" (.ofString "a^b^c")) (.ofString "fr_rule")
    (.ofString "a^b^c") (.ofString "a^b^c") 0 1 2 (List.replicate 8 1)
    (stored_oneSet (by decide) (by decide) (by decide)) (by decide) (by decide) (by decide)).mpr
    (.inl ⟨by decide, by decide⟩)

/-- Behind an attribute that does not fit, the next one is written outside the buffer. -/
theorem getsSubrule_behind : ¬ GetsSubrule (.ofString "aaaa^b") 0 1 4
    (onMap (ezplibGetSubrule clean (.ofString "fr_rule") (0 : ℕ) (0 : ℕ) (1 : ℕ)
      (List.replicate 4 1)) (oneSet "fr_rule" (.ofString "aaaa^b"))).1 := by
  intro h
  have hfault : (onMap (ezplibGetSubrule clean (.ofString "fr_rule") (0 : ℕ) (0 : ℕ) (1 : ℕ)
      (List.replicate 4 1)) (oneSet "fr_rule" (.ofString "aaaa^b"))).1 = .error .overflow := by
    decide
  obtain ⟨a, ha⟩ := h.inside
  rw [hfault] at ha
  cases ha

end EzpFirmware.UserNvram
