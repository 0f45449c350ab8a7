import EzpFirmware.Lib.Scanning
import EzpFirmware.Lib.Rewriting
import EzpFirmware.UserNvram.AttrScans
import EzpFirmware.UserNvram.Subrules

/-! # Functions that migrate rules

A migration fetches parts of rules to buffers on its stack, prints them together
with other texts, and replaces rule after rule by what it printed. A replacement
for which the set has no room is dropped, and nothing says so.
-/
namespace EzpFirmware.UserNvram
open Lib

/-- A function that migrates variables. It ends where memory outside a buffer is touched. -/
abbrev Migration := ExceptT Fault Api

/-- A migration on a map of variables alone. -/
def runOn {α : Type} (p : Migration α) (M : Variables) : Except Fault α × Variables := onMap p.run M

/-- The size of `buf` and `buf2`. -/
def BUF_LEN : ℕ := 256

/-- The size of `tmp`. -/
def TMP_LEN : ℕ := 1024

/-- `ezplib_get_subrule` to `buf`, as the text that `buf` holds then. It starts with zeros, whatever
was there. -/
def subruleText (u : Unspecified) (ruleSet : CStr) (nth start stop : ℕ) : Migration CStr := do
  let r ← ExceptT.mk (ezplibGetSubrule u ruleSet nth start stop (List.replicate BUF_LEN 0))
  pure (CStr.read r.2)

/-- `ezplib_get_rule` to `buf`. -/
def ruleText (u : Unspecified) (ruleSet : CStr) (nth : ℕ) : Migration CStr := do
  let r ← (ezplibGetRule u ruleSet nth BUF_LEN : Api _)
  pure r.2

/-- The same for a buffer of another size. -/
def subruleIn (u : Unspecified) (bsize : ℕ) (ruleSet : CStr) (nth start stop : ℕ) :
    Migration CStr := do
  let r ← ExceptT.mk (ezplibGetSubrule u ruleSet nth start stop (List.replicate bsize 0))
  pure (CStr.read r.2)

def ruleIn (u : Unspecified) (bsize : ℕ) (ruleSet : CStr) (nth : ℕ) : Migration CStr := do
  let r ← (ezplibGetRule u ruleSet nth bsize : Api _)
  pure r.2

/-- What `snprintf` leaves in `tmp` for the parts of a format. -/
def printTmp (parts : List CStr) : CStr := (CStr.concat parts).take (TMP_LEN - 1)

/-- One round of such a loop. -/
def replaceBy (u : Unspecified) (ruleSet : CStr) (newRule : ℕ → Migration CStr) (i : ℕ) :
    Migration Unit := do
  let tmp ← newRule i
  let _ ← (ezplibReplaceRule u ruleSet i tmp : Api ℤ)

/-- The rounds of a loop. -/
def forEach (body : ℕ → Migration Unit) : List ℕ → Migration Unit
  | [] => pure ()
  | i :: is => do
    body i
    forEach body is

/-- The loop `for (i = 0; i < nrule; i++)` that replaces the rules of a set one by one. -/
def eachRule (u : Unspecified) (ruleSet : CStr) (nrule : ℤ) (newRule : ℕ → Migration CStr) :
    Migration Unit :=
  forEach (replaceBy u ruleSet newRule) (List.range nrule.toNat)

/-! ## Running a migration -/

section
variable {α β : Type} {M : Variables}

@[simp] theorem runOn_pure (a : α) : runOn (pure a) M = (.ok a, M) := rfl

@[simp] theorem runOn_lift (p : Api α) :
    runOn (liftM p : Migration α) M = (.ok (onMap p M).1, (onMap p M).2) := by
  change onMap (p >>= fun a => pure (Except.ok a)) M = _
  rw [onMap_bind]
  rfl

@[simp] theorem runOn_mk (p : Api (Except Fault α)) : runOn (ExceptT.mk p) M = onMap p M := rfl

theorem runOn_bind (p : Migration α) (f : α → Migration β) (M : Variables) :
    runOn (p >>= f) M =
      match runOn p M with
      | (.ok a, M') => runOn (f a) M'
      | (.error e, M') => (.error e, M') := by
  change onMap (p.run >>= ExceptT.bindCont f) M = _
  rw [onMap_bind, runOn]
  rcases onMap p.run M with ⟨a | a, M'⟩ <;> rfl

/-- Both parts of a migration that returns have returned. -/
theorem runOn_bind_inv {p : Migration α} {f : α → Migration β} {b : β} {M' : Variables}
    (h : runOn (p >>= f) M = (.ok b, M')) :
    ∃ a M₁, runOn p M = (.ok a, M₁) ∧ runOn (f a) M₁ = (.ok b, M') := by
  rw [runOn_bind] at h
  rcases hp : runOn p M with ⟨e | a, M₁⟩
  · rw [hp] at h
    cases h
  · rw [hp] at h
    exact ⟨a, M₁, rfl, h⟩

theorem runOn_bind_ok {p : Migration α} {a : α} {M' : Variables} (h : runOn p M = (.ok a, M'))
    (f : α → Migration β) : runOn (p >>= f) M = runOn (f a) M' := by
  rw [runOn_bind, h]

theorem runOn_forEach_cons (body : ℕ → Migration Unit) (i : ℕ) (is : List ℕ) (M : Variables) :
    runOn (forEach body (i :: is)) M =
      match runOn (body i) M with
      | (.ok _, M') => runOn (forEach body is) M'
      | (.error e, M') => (.error e, M') := by
  rw [forEach, runOn_bind]
  rcases runOn (body i) M with ⟨e | x, M'⟩ <;> rfl

/-- The last round of a loop. -/
theorem runOn_forEach_concat {body : ℕ → Migration Unit} {is : List ℕ} {M' : Variables}
    (h : runOn (forEach body is) M = (.ok (), M')) (i : ℕ) :
    runOn (forEach body (is ++ [i])) M = runOn (body i) M' := by
  induction is generalizing M with
  | nil =>
    obtain rfl : M = M' := congrArg Prod.snd h
    rw [List.nil_append, runOn_forEach_cons]
    rcases runOn (body i) M with ⟨e | x, M''⟩ <;> rfl
  | cons j is ih =>
    rw [runOn_forEach_cons] at h
    rw [List.cons_append, runOn_forEach_cons]
    rcases hj : runOn (body j) M with ⟨e | x, M''⟩
    · rw [hj] at h
      cases h
    · rw [hj] at h
      exact ih h

theorem runOn_replaceBy {u : Unspecified} {ruleSet w : CStr} {newRule : ℕ → Migration CStr} {i : ℕ}
    (h : runOn (newRule i) M = (.ok w, M)) :
    runOn (replaceBy u ruleSet newRule i) M =
      (.ok (), (onMap (ezplibReplaceRule u ruleSet i w) M).2) := by
  rw [replaceBy, runOn_bind_ok h, runOn_bind, runOn_lift]
  rfl

end

/-! ## What a migration leaves alone -/

section
variable {α β : Type} {P : CStr → Prop} {p : Migration α} {u : Unspecified} {ruleSet : CStr}

theorem confined_lift {q : Api α} (hq : Confined P q) : Confined P (liftM q : Migration α).run :=
  hq.bind fun _ => trivial

theorem confined_bind {f : α → Migration β} (hp : Confined P p.run)
    (hf : ∀ a, Confined P (f a).run) : Confined P (p >>= f).run := by
  apply hp.bind
  rintro (e | a)
  · trivial
  · exact hf a

theorem confined_subruleIn (u : Unspecified) (bsize : ℕ) (ruleSet : CStr) (nth start stop : ℕ) :
    Confined P (subruleIn u bsize ruleSet nth start stop).run := by
  apply confined_bind
  · change Confined P (ezplibGetSubrule u ruleSet nth start stop _)
    rw [ezplibGetSubrule]
    split_ifs
    · trivial
    · apply (confined_getRule u ruleSet nth EZPLIB_BUF_LEN).bind
      intro r
      dsimp only
      split_ifs
      · trivial
      · split
        · trivial
        · split <;> trivial
  · exact fun _ => trivial

theorem confined_subruleText (u : Unspecified) (ruleSet : CStr) (nth start stop : ℕ) :
    Confined P (subruleText u ruleSet nth start stop).run :=
  confined_subruleIn u BUF_LEN ruleSet nth start stop

/-- A loop over a set changes nothing but the set. -/
theorem confined_eachRule (hset : P ruleSet) {newRule : ℕ → Migration CStr}
    (hnew : ∀ i, Confined P (newRule i).run) (nrule : ℤ) :
    Confined P (eachRule u ruleSet nrule newRule).run := by
  rw [eachRule]
  induction List.range nrule.toNat with
  | nil => trivial
  | cons i is ih =>
    apply confined_bind _ fun _ => ih
    apply confined_bind (hnew i)
    intro tmp
    exact confined_bind (confined_lift (confined_replaceRule u hset i tmp)) fun _ => trivial

theorem runOn_confined {M M' : Variables} {a : Except Fault α} (hrun : runOn p M = (a, M'))
    (hp : Confined P p.run) {m : CStr} (hm : ¬ P m) : M' m = M m := by
  have hsame := hp.onMap hm M
  rwa [← runOn, hrun] at hsame

end

/-! ## What a set holds -/

/-- A rule that is fetched from a set as it was stored. -/
structure Storable (r : CStr) : Prop where
  ne : r ≠ CStr.empty
  free : RULE_SEP ∉ r.val
  plain : PERCENT ∉ r.val

/-- A set holds these rules. -/
structure HoldsRules (M : Variables) (ruleSet : CStr) (rs : List CStr) : Prop where
  name : ruleSet ≠ CStr.empty
  stored : M ruleSet = some (joinRules rs)
  ne : rs ≠ []
  rules : ∀ r ∈ rs, Storable r

/-- The bytes a rule takes in a set, with a separator. -/
def ruleSize (r : CStr) : ℕ := r.len + 1

section
variable {u : Unspecified} {M : Variables} {ruleSet r w : CStr} {rs : List CStr} {i : ℕ}

theorem joinRules_total (hrs : rs ≠ []) : total ruleSize rs = (joinRules rs).len + 1 :=
  (CStr.join_len _ hrs).symm

theorem HoldsRules.fields (h : HoldsRules M ruleSet rs) :
    (joinRules rs).fields RULE_SEP = rs :=
  CStr.fields_join _ h.ne fun r hr => (h.rules r hr).free

theorem joinRules_ne (hne : rs ≠ []) (hrs : ∀ r ∈ rs, Storable r) :
    joinRules rs ≠ CStr.empty := by
  intro h
  rcases (CStr.join_eq_empty_iff _).mp h with h | h
  · exact hne h
  · exact (hrs CStr.empty (h ▸ List.mem_singleton.mpr rfl)).ne rfl

theorem HoldsRules.toStored (h : HoldsRules M ruleSet rs) : Stored M ruleSet (joinRules rs) := by
  refine ⟨h.name, h.stored, joinRules_ne h.ne h.rules, fun hp => ?_⟩
  rcases CStr.mem_join hp with hp | ⟨r, hr, hp⟩
  · exact absurd hp (by decide)
  · exact (h.rules r hr).plain hp

theorem HoldsRules.of_update (h : HoldsRules M ruleSet rs) {rs' : List CStr} (hne : rs' ≠ [])
    (hrs : ∀ r ∈ rs', Storable r) :
    HoldsRules (Function.update M ruleSet (some (joinRules rs'))) ruleSet rs' :=
  ⟨h.name, Function.update_self _ _ _, hne, hrs⟩

theorem HoldsRules.update_self (h : HoldsRules M ruleSet rs) :
    Function.update M ruleSet (some (joinRules rs)) = M := by
  rw [← h.stored, Function.update_eq_self]

theorem storable_replaceAt {room : ℕ} (hrs : ∀ r ∈ rs, Storable r)
    (hw : i < rs.length → total ruleSize rs ≤ room → Storable w) :
    ∀ r ∈ replaceAt ruleSize room rs i w, Storable r := by
  intro r hr
  rw [replaceAt] at hr
  split at hr
  · rename_i hfit
    by_cases hi : i < rs.length
    · rcases List.mem_or_eq_of_mem_set hr with hr | rfl
      · exact hrs r hr
      · exact hw hi hfit.1
    · rw [List.set_eq_of_length_le (not_lt.mp hi)] at hr
      exact hrs r hr
  · exact hrs r hr

/-- A replacement of a rule is done if there is room for it and the set does not become empty. -/
theorem Stored.replaceRule_at (h : Stored M ruleSet (joinRules rs))
    (hrs : (joinRules rs).fields RULE_SEP = rs) (hi : i < rs.length)
    (hne : total ruleSize rs ≤ EZPLIB_BUF_LEN → joinRules (rs.set i w) ≠ CStr.empty) :
    (onMap (ezplibReplaceRule u ruleSet i w) M).2 =
      Function.update M ruleSet (some (joinRules (replaceAt ruleSize EZPLIB_BUF_LEN rs i w))) := by
  have hnil : rs ≠ [] := by
    rintro rfl
    cases hi
  have hset : rs.set i w ≠ [] := by
    intro hnil
    have hlen := congrArg List.length hnil
    rw [List.length_set, List.length_nil] at hlen
    omega
  have hsize := joinRules_total hnil
  have hsize' := joinRules_total hset
  have hop := h.opRule (u := u) .REPLACE_RULE i w (replace_ne_nil (CStr.fieldsOf_ne_nil _ _))
  have hedit : Opcode.REPLACE_RULE.edit i w rs = rs.set i w := if_pos (by omega)
  rw [hrs, hedit] at hop
  rw [h.replaceRule, hrs, if_neg (by omega), hop, replaceAt, hsize, hsize']
  dsimp only
  by_cases hfit : (joinRules rs).len < EZPLIB_BUF_LEN ∧
      (joinRules (rs.set i w)).len + 1 < EZPLIB_BUF_LEN
  · rw [if_pos hfit, if_pos ⟨Nat.succ_le_of_lt hfit.1, hfit.2⟩, kept, Option.bind_some,
      if_neg (hne (hsize ▸ hfit.1))]
  · rw [if_neg hfit, if_neg fun hc => hfit ⟨Nat.lt_of_succ_le hc.1, hc.2⟩, ← h.stored,
      Function.update_eq_self]

/-- A replacement is done where there is room for it, and otherwise nothing happens. -/
theorem HoldsRules.replaceRule (h : HoldsRules M ruleSet rs)
    (hw : i < rs.length → total ruleSize rs ≤ EZPLIB_BUF_LEN → Storable w) :
    (onMap (ezplibReplaceRule u ruleSet i w) M).2 =
      Function.update M ruleSet (some (joinRules (replaceAt ruleSize EZPLIB_BUF_LEN rs i w))) := by
  by_cases hi : i < rs.length
  · apply h.toStored.replaceRule_at h.fields hi
    intro hroom
    have hne : rs.set i w ≠ [] := by
      intro hnil
      have hlen := congrArg List.length hnil
      rw [List.length_set, List.length_nil] at hlen
      omega
    apply joinRules_ne hne
    intro r hr
    rcases List.mem_or_eq_of_mem_set hr with hr | rfl
    · exact h.rules r hr
    · exact hw hi hroom
  · have hset : rs.set i w = rs := List.set_eq_of_length_le (not_lt.mp hi)
    have hsame : replaceAt ruleSize EZPLIB_BUF_LEN rs i w = rs := by rw [replaceAt, hset, ite_self]
    have hop := h.toStored.opRule (u := u) .REPLACE_RULE i w
      (replace_ne_nil (CStr.fieldsOf_ne_nil _ _))
    rw [h.fields] at hop
    rw [h.toStored.replaceRule, h.fields, hsame, h.update_self]
    by_cases hout : (i : ℤ) > rs.length ∨ (i : ℤ) < 0
    · rw [if_pos hout]
    · rw [if_neg hout, hop, edit_outside (by omega)]
      dsimp only
      split_ifs
      · rw [kept, Option.bind_some, if_neg (joinRules_ne h.ne h.rules), h.update_self]
      · rfl

/-! ## Fetching parts of rules -/

theorem HoldsRules.readable (h : HoldsRules M ruleSet rs)
    (hroom : total ruleSize rs ≤ EZPLIB_BUF_LEN) : Readable M ruleSet (joinRules rs) :=
  h.toStored.readable (by rw [joinRules_total h.ne] at hroom; exact hroom)

/-- A rule that is there is fetched, and otherwise an error is returned. -/
theorem HoldsRules.getRule (h : HoldsRules M ruleSet rs) :
    (∃ r, rs[i]? = some r ∧ total ruleSize rs ≤ EZPLIB_BUF_LEN) ∨
      ((onMap (ezplibGetRule u ruleSet i EZPLIB_BUF_LEN) M).1.1 < 0 ∧
        ∀ r, rs[i]? = some r → ¬ total ruleSize rs ≤ EZPLIB_BUF_LEN) := by
  by_cases hroom : total ruleSize rs ≤ EZPLIB_BUF_LEN
  · have hread := h.readable hroom
    cases hr : rs[i]? with
    | some r => exact .inl ⟨r, rfl, hroom⟩
    | none =>
      refine .inr ⟨?_, fun r hr => by cases hr⟩
      rw [hread.getRule i hread.fits, h.fields, hr]
      exact (by decide : EZPLIB_NO_RULE < 0)
  · refine .inr ⟨?_, fun _ _ => hroom⟩
    rw [joinRules_total h.ne] at hroom
    rw [getRule_long h.name h.stored (by omega)]
    exact (by decide : EZPLIB_VAL_TRUNC < 0)

/-- After an error the buffer is empty. -/
theorem subruleIn_error {bsize start stop : ℕ} (hsize : 0 < bsize)
    (herr : (onMap (ezplibGetRule u ruleSet i EZPLIB_BUF_LEN) M).1.1 < 0) :
    runOn (subruleIn u bsize ruleSet i start stop) M = (.ok CStr.empty, M) := by
  have hsame := onMap_of_confined (confined_getRule u ruleSet i EZPLIB_BUF_LEN) M
  have hread : CStr.read (List.replicate bsize 0) = CStr.empty := (Print.shows_zeros hsize).read
  rw [subruleIn, runOn_bind, runOn_mk, ezplibGetSubrule, List.length_replicate]
  split_ifs
  · exact congrArg (fun w => (Except.ok w, M)) hread
  · rw [onMap_bind, if_pos herr, hsame]
    exact congrArg (fun w => (Except.ok w, M)) hread

theorem subruleText_error {start stop : ℕ}
    (herr : (onMap (ezplibGetRule u ruleSet i EZPLIB_BUF_LEN) M).1.1 < 0) :
    runOn (subruleText u ruleSet i start stop) M = (.ok CStr.empty, M) :=
  subruleIn_error (by decide : 0 < BUF_LEN) herr

/-- The part of a rule that is there. -/
theorem HoldsRules.subruleIn (h : HoldsRules M ruleSet rs) {bsize start stop : ℕ} {r : CStr}
    (hr : rs[i]? = some r) (hroom : total ruleSize rs ≤ EZPLIB_BUF_LEN) (hsize : 0 < bsize)
    (hle : start ≤ stop) (hfit : (CStr.lines ATTR_SEP ATTR_SEP_ne (subrule r start stop)).len ≤ bsize) :
    runOn (UserNvram.subruleIn u bsize ruleSet i start stop) M =
      (.ok (joinAttrs (subrule r start stop)), M) := by
  obtain ⟨buf, hbuf, hread⟩ := printed_fits hsize hfit
  have hget := (h.readable hroom).getSubrule (u := u)
    (h.fields.symm ▸ hr : ((joinRules rs).fields RULE_SEP)[i]? = some r) hle
    (List.replicate bsize 0)
  rw [List.length_replicate, hbuf] at hget
  rw [UserNvram.subruleIn, runOn_bind, runOn_mk, hget, ← hread]
  rfl

/-- What a part of a migration gives for the rules of a set: `f` of a rule that can be fetched, and
some text for any other. -/
structure Computes (ruleSet : CStr) (P : CStr → Prop) (f : CStr → CStr)
    (newRule : ℕ → Migration CStr) : Prop where
  missing : ∀ M i, M ruleSet = none → ∃ w, runOn (newRule i) M = (.ok w, M)
  rule : ∀ M rs i, HoldsRules M ruleSet rs → (∀ r, rs[i]? = some r → P r) →
    ∃ w, runOn (newRule i) M = (.ok w, M) ∧
      ∀ r, rs[i]? = some r → total ruleSize rs ≤ EZPLIB_BUF_LEN → w = f r

theorem getRule_missing (hM : M ruleSet = none) (bsize : ℕ) :
    (onMap (ezplibGetRule u ruleSet i bsize) M).1.1 < 0 := by
  rw [ezplibGetRule]
  split_ifs
  · exact (by decide : EZPLIB_INVALID < 0)
  · rw [onMap_bind, onMap_get, hM]
    exact (by decide : EZPLIB_NO_RULE_SET < 0)

variable {P : CStr → Prop} {f g : CStr → CStr} {p q : ℕ → Migration CStr}

theorem computes_subruleIn {bsize start stop : ℕ} (hsize : 0 < bsize) (hle : start ≤ stop)
    (hP : ∀ r, P r → (CStr.lines ATTR_SEP ATTR_SEP_ne (subrule r start stop)).len ≤ bsize) :
    Computes ruleSet P (fun r => joinAttrs (subrule r start stop))
      (subruleIn u bsize ruleSet · start stop) where
  missing M i hM := ⟨_, subruleIn_error hsize (getRule_missing hM _)⟩
  rule M rs i h hrs := by
    rcases h.getRule (u := u) (i := i) with ⟨r, hr, hroom⟩ | ⟨herr, hnone⟩
    · refine ⟨_, h.subruleIn hr hroom hsize hle (hP r (hrs r hr)), ?_⟩
      intro r' hr' _
      rw [hr] at hr'
      cases hr'
      rfl
    · exact ⟨_, subruleIn_error hsize herr, fun r hr hroom => absurd hroom (hnone r hr)⟩

theorem computes_subrule {start stop : ℕ} (hle : start ≤ stop)
    (hP : ∀ r, P r → (CStr.lines ATTR_SEP ATTR_SEP_ne (subrule r start stop)).len ≤ BUF_LEN) :
    Computes ruleSet P (fun r => joinAttrs (subrule r start stop))
      (subruleText u ruleSet · start stop) :=
  computes_subruleIn (by decide) hle hP

theorem computes_ruleIn {bsize : ℕ} (hP : ∀ r, P r → r.len < bsize) :
    Computes ruleSet P id (ruleIn u bsize ruleSet) where
  missing M i hM := by
    have hsame := onMap_of_confined (confined_getRule u ruleSet i bsize) M
    rw [ruleIn, runOn_bind, runOn_lift, hsame]
    exact ⟨_, rfl⟩
  rule M rs i h hrs := by
    have hsame := onMap_of_confined (confined_getRule u ruleSet i bsize) M
    rw [ruleIn, runOn_bind, runOn_lift, hsame]
    refine ⟨_, rfl, fun r hr hroom => ?_⟩
    have hshort : (u.printf r).len < bsize := by
      rw [u.printf_plain r (h.rules r (List.mem_of_getElem? hr)).plain]
      exact hP r (hrs r hr)
    rw [joinRules_total h.ne] at hroom
    have hne := h.toStored.ne
    rw [getRule_stored h.name h.stored (h.fields.symm ▸ hr) bsize, if_neg hne,
      if_neg (by omega), printRule_short hshort]
    exact u.printf_plain r (h.rules r (List.mem_of_getElem? hr)).plain

theorem computes_rule (hP : ∀ r, P r → r.len < BUF_LEN) :
    Computes ruleSet P id (ruleText u ruleSet) := computes_ruleIn hP

theorem Computes.congr (hp : Computes ruleSet P f p) (hfg : ∀ r, P r → f r = g r) :
    Computes ruleSet P g p where
  missing := hp.missing
  rule M rs i h hrs := by
    obtain ⟨w, hw, hf⟩ := hp.rule M rs i h hrs
    exact ⟨w, hw, fun r hr hroom => (hf r hr hroom).trans (hfg r (hrs r hr))⟩

theorem Computes.map (hp : Computes ruleSet P f p) (k : CStr → CStr) :
    Computes ruleSet P (fun r => k (f r)) fun i => do pure (k (← p i)) where
  missing M i hM := by
    obtain ⟨w, hw⟩ := hp.missing M i hM
    exact ⟨k w, runOn_bind_ok hw _⟩
  rule M rs i h hrs := by
    obtain ⟨w, hw, hf⟩ := hp.rule M rs i h hrs
    exact ⟨k w, runOn_bind_ok hw _, fun r hr hroom => congrArg k (hf r hr hroom)⟩

theorem Computes.map₂ (hp : Computes ruleSet P f p) (hq : Computes ruleSet P g q)
    (k : CStr → CStr → CStr) :
    Computes ruleSet P (fun r => k (f r) (g r)) fun i => do
      let buf ← p i
      let buf2 ← q i
      pure (k buf buf2) where
  missing M i hM := by
    obtain ⟨w, hw⟩ := hp.missing M i hM
    obtain ⟨v, hv⟩ := hq.missing M i hM
    exact ⟨k w v, (runOn_bind_ok hw _).trans (runOn_bind_ok hv _)⟩
  rule M rs i h hrs := by
    obtain ⟨w, hw, hf⟩ := hp.rule M rs i h hrs
    obtain ⟨v, hv, hg⟩ := hq.rule M rs i h hrs
    refine ⟨k w v, (runOn_bind_ok hw _).trans (runOn_bind_ok hv _), fun r hr hroom => ?_⟩
    rw [hf r hr hroom, hg r hr hroom]

end

end EzpFirmware.UserNvram
