import EzpFirmware.UserNvram.AttrEdits
import EzpFirmware.UserNvram.AttrTables
import EzpFirmware.UserNvram.Base64

/-! # Scans of the tables in memory

A scan goes through a table and the attributes of a rule side by side, up to an
entry without a name or to the end of the rule. In a table without such an entry
it can get to memory behind the table.
-/
namespace EzpFirmware.UserNvram
open Lib

/-- `show_b64_value`. A text that is no code leaves the length of the buffer as it was, and the end
of the string is put behind the buffer. -/
def showB64Value (val : CStr) (bsize : ℕ) : Except Fault (ℤ × CStr) :=
  match base64Decode val.val EZPLIB_BUF_LEN with
  | (.CRYPT_OK, out) => .ok (showValue (CStr.read out) bsize)
  | _ => .error .overflow

def Show.run : Show → CStr → ℕ → Except Fault (ℤ × CStr)
  | .showValue, val, bsize => .ok (UserNvram.showValue val bsize)
  | .showB64Value, val, bsize => UserNvram.showB64Value val bsize

namespace InMemory

/-- The loop of `ezplib_get_attr_val` over a table, from entry `j` on. -/
def attrScan (type : CStr) : AttrTable → List CStr → ℕ → Except Fault (Option (Attr × CStr))
  | [], _, j => .error (.outOfTable j)
  | none :: _, _, _ => .ok none
  | some _ :: _, [], _ => .ok none
  | some attr :: table, ptr :: ptrs, j =>
    if attr.name = type then .ok (some (attr, ptr)) else attrScan type table ptrs (j + 1)

/-- The loop over the rules around it. A table without the attribute leads to the next one. -/
def ruleScan (ruleSet type : CStr) (ptrs : List CStr) :
    List RuleTable → Except Fault (Option (Attr × CStr))
  | [] => .ok none
  | v :: vs =>
    if v.name ≠ ruleSet then ruleScan ruleSet type ptrs vs
    else match attrScan type v.attr ptrs 0 with
      | .error e => .error e
      | .ok (some a) => .ok (some a)
      | .ok none => ruleScan ruleSet type ptrs vs

/-- What the scan leads to. -/
def shown (bsize : ℕ) : Except Fault (Option (Attr × CStr)) → Except Fault (ℤ × CStr)
  | .error e => .error e
  | .ok (some a) => a.1.funcOrig.run a.2 bsize
  | .ok none => .ok (EZPLIB_NO_ATTRIBUTE, CStr.empty)

/-- `ezplib_get_attr_val` with `EZPLIB_USE_CLI`. -/
def ezplibGetAttrVal (u : Unspecified) (ruleSet : CStr) (nth : ℤ) (type : CStr) (bsize : ℕ) :
    Api (Except Fault (ℤ × CStr)) :=
  if ruleSet = CStr.empty ∨ type = CStr.empty then pure (.ok (EZPLIB_INVALID, CStr.empty))
  else do
    let r ← ezplibGetRule u ruleSet nth EZPLIB_BUF_LEN
    if r.1 < 0 then pure (.ok (r.1, CStr.empty))
    else
      pure (shown bsize
        (ruleScan ruleSet type ((r.2.fields ATTR_SEP).take MAX_ATTR_NUM) rules))

/-- The loop of `ezplib_replace_attr` over a table. -/
def replaceScan (attrName newAttr : CStr) :
    AttrTable → List CStr → ℕ → CStr → Except Fault (Option CStr)
  | [], _, j, _ => .error (.outOfTable j)
  | none :: _, _, _, tmp => .ok (some tmp)
  | some _ :: _, [], _, tmp => .ok (some tmp)
  | some attr :: table, ptr :: ptrs, j, tmp =>
    match emit ATTR_SEP ATTR_SEP_ne (if attr.name = attrName then newAttr else ptr) tmp with
    | none => .ok none
    | some tmp => replaceScan attrName newAttr table ptrs (j + 1) tmp

/-- What the rewritten rule is used for. -/
def replaced (u : Unspecified) (ruleSet : CStr) (nth : ℤ) :
    Except Fault (Option CStr) → Api (Except Fault ℤ)
  | .error e => pure (.error e)
  | .ok none => pure (.ok EZPLIB_VAL_TRUNC)
  | .ok (some tmp) => do
    let ret ← ezplibReplaceRule u ruleSet nth
      (if tmp = CStr.empty then u.buf else tmp.chop ATTR_SEP)
    pure (.ok ret)

/-- `ezplib_replace_attr`. -/
def ezplibReplaceAttr (u : Unspecified) (ruleSet : CStr) (nth : ℤ) (attrName newAttr : CStr) :
    Api (Except Fault ℤ) :=
  if ruleSet = CStr.empty ∨ attrName = CStr.empty then pure (.ok EZPLIB_INVALID)
  else do
    let r ← ezplibGetRule u ruleSet nth EZPLIB_BUF_LEN
    if r.1 < 0 then pure (.ok r.1)
    else
      match rules.find? fun v => v.name = ruleSet with
      | none => pure (.ok EZPLIB_NO_ATTRIBUTE)
      | some v =>
        replaced u ruleSet nth (replaceScan attrName newAttr v.attr
          ((r.2.fields ATTR_SEP).take MAX_ATTR_NUM) 0 CStr.empty)

/-- No entry behind a table is read. -/
def StaysInTable {α : Type} (call : Except Fault α) : Prop := ∀ i, call ≠ .error (.outOfTable i)

theorem staysInTable_ok {α : Type} (a : α) : StaysInTable (.ok a) := fun i h => by cases h

theorem not_staysInTable {α : Type} (i : ℤ) :
    ¬ StaysInTable (.error (.outOfTable i) : Except Fault α) := fun h => h i rfl

/-! ## What a scan finds, and where it stops -/

section
variable {type attrName newAttr : CStr}

/-- A scan that stays in the table finds what a search through the named attributes does. -/
theorem attrScan_ok {table : AttrTable} {ptrs : List CStr} {j : ℕ} {r : Option (Attr × CStr)}
    (h : attrScan type table ptrs j = .ok r) :
    r.map (fun a => (a.1.name, a.2)) = (table.names.zip ptrs).find? fun a => a.1 = type := by
  induction table generalizing ptrs j with
  | nil => cases h
  | cons entry table ih =>
    cases entry with
    | none =>
      cases h
      rfl
    | some attr =>
      cases ptrs with
      | nil =>
        cases h
        simp
      | cons ptr ptrs =>
        rw [attrScan] at h
        by_cases hname : attr.name = type
        · rw [if_pos hname] at h
          cases h
          simp [hname]
        · rw [if_neg hname] at h
          simpa [hname] using ih h

/-- The scan for a name of the table finds the attribute at its index, if the rule has one. -/
theorem attrScan_found {table : AttrTable} {a : Attr} (hname : type ∈ table.names)
    (ha : table[table.names.idxOf type]? = some (some a)) (ptrs : List CStr) (j : ℕ) :
    attrScan type table ptrs j = .ok (ptrs[table.names.idxOf type]?.map fun q => (a, q)) := by
  induction table generalizing ptrs j with
  | nil => cases hname
  | cons entry table ih =>
    cases entry with
    | none => cases hname
    | some attr =>
      rw [AttrTable.names_some] at hname ha ⊢
      cases ptrs with
      | nil => simp [attrScan]
      | cons ptr ptrs =>
        rw [attrScan]
        by_cases heq : attr.name = type
        · subst heq
          rw [List.idxOf_cons_self] at ha ⊢
          cases ha
          rw [if_pos rfl]
          rfl
        · have hrest : type ∈ AttrTable.names table :=
            (List.mem_cons.mp hname).resolve_left (Ne.symm heq)
          rw [List.idxOf_cons_ne _ heq] at ha ⊢
          rw [if_neg heq, ih hrest ha]
          rfl

/-- It stays in the table if that is ended, or the rule is shorter, or the attribute is there. -/
theorem attrScan_isOk_iff {table : AttrTable} {ptrs : List CStr} {j : ℕ} :
    (∃ r, attrScan type table ptrs j = .ok r) ↔
      none ∈ table ∨ ptrs.length < table.length ∨ ∃ attr, some attr ∈ table ∧ attr.name = type := by
  induction table generalizing ptrs j with
  | nil => simp [attrScan]
  | cons entry table ih =>
    cases entry with
    | none => simp [attrScan]
    | some attr =>
      cases ptrs with
      | nil => simp [attrScan]
      | cons ptr ptrs =>
        rw [attrScan]
        by_cases hname : attr.name = type
        · simp [hname]
        · simpa [hname] using ih

theorem replaceScan_ok {table : AttrTable} {ptrs : List CStr} {j : ℕ} {tmp : CStr}
    {r : Option CStr} (h : replaceScan attrName newAttr table ptrs j tmp = .ok r) :
    r = attrLoop attrName newAttr (table.names.zip ptrs) tmp := by
  induction table generalizing ptrs j tmp with
  | nil => cases h
  | cons entry table ih =>
    cases entry with
    | none =>
      cases h
      rfl
    | some attr =>
      cases ptrs with
      | nil =>
        cases h
        rfl
      | cons ptr ptrs =>
        rw [AttrTable.names_some, List.zip_cons_cons, attrLoop]
        rw [replaceScan] at h
        cases hemit : emit ATTR_SEP ATTR_SEP_ne (if attr.name = attrName then newAttr else ptr) tmp
          with
        | none =>
          rw [hemit] at h
          cases h
          rfl
        | some tmp =>
          rw [hemit] at h
          exact ih h

/-- The rewriting scan does not stop at the attribute, but it stops when the buffer is full. -/
theorem replaceScan_isOk_iff {table : AttrTable} {ptrs : List CStr} {j : ℕ} {tmp : CStr} :
    (∃ r, replaceScan attrName newAttr table ptrs j tmp = .ok r) ↔
      none ∈ table ∨ ptrs.length < table.length ∨
        attrLoop attrName newAttr (table.names.zip ptrs) tmp = none := by
  induction table generalizing ptrs j tmp with
  | nil => simp [replaceScan, attrLoop]
  | cons entry table ih =>
    cases entry with
    | none => simp [replaceScan]
    | some attr =>
      cases ptrs with
      | nil => simp [replaceScan]
      | cons ptr ptrs =>
        rw [AttrTable.names_some, List.zip_cons_cons, attrLoop, replaceScan]
        cases emit ATTR_SEP ATTR_SEP_ne (if attr.name = attrName then newAttr else ptr) tmp with
        | none => simp
        | some tmp => simpa using ih

/-- The only fault of a scan is an entry behind the table. -/
theorem attrScan_error {table : AttrTable} {ptrs : List CStr} {j : ℕ} {e : Fault}
    (h : attrScan type table ptrs j = .error e) : ∃ i, e = .outOfTable i := by
  induction table generalizing ptrs j with
  | nil =>
    cases h
    exact ⟨j, rfl⟩
  | cons entry table ih =>
    cases entry with
    | none => cases h
    | some attr =>
      cases ptrs with
      | nil => cases h
      | cons ptr ptrs =>
        rw [attrScan] at h
        split_ifs at h
        exact ih h

theorem replaceScan_error {table : AttrTable} {ptrs : List CStr} {j : ℕ} {tmp : CStr} {e : Fault}
    (h : replaceScan attrName newAttr table ptrs j tmp = .error e) : ∃ i, e = .outOfTable i := by
  induction table generalizing ptrs j tmp with
  | nil =>
    cases h
    exact ⟨j, rfl⟩
  | cons entry table ih =>
    cases entry with
    | none => cases h
    | some attr =>
      cases ptrs with
      | nil => cases h
      | cons ptr ptrs =>
        rw [replaceScan] at h
        split at h
        · cases h
        · exact ih h

variable {ruleSet : CStr} {ptrs : List CStr} {vs : List RuleTable}

/-- Only the tables of the rule set are scanned. -/
theorem ruleScan_filter : ruleScan ruleSet type ptrs vs =
    ruleScan ruleSet type ptrs (vs.filter fun v => v.name = ruleSet) := by
  induction vs with
  | nil => rfl
  | cons v vs ih =>
    by_cases hname : v.name = ruleSet
    · rw [List.filter_cons_of_pos (by simpa using hname), ruleScan, ruleScan,
        if_neg (not_not.mpr hname), if_neg (not_not.mpr hname), ih]
    · rw [List.filter_cons_of_neg (by simpa using hname), ruleScan, if_pos hname, ih]

/-- With one table, its scan is all there is. -/
theorem ruleScan_single {v : RuleTable} (hname : v.name = ruleSet) :
    ruleScan ruleSet type ptrs [v] = attrScan type v.attr ptrs 0 := by
  rw [ruleScan, if_neg (not_not.mpr hname)]
  cases attrScan type v.attr ptrs 0 with
  | error e => rfl
  | ok r => cases r <;> rfl

/-- The table of a rule set is the only one that is scanned for it. -/
theorem ruleScan_rules {v : RuleTable} (hv : v ∈ rules) (hname : v.name = ruleSet) :
    ruleScan ruleSet type ptrs rules = attrScan type v.attr ptrs 0 := by
  have hfilter := filter_name hv
  rw [hname] at hfilter
  rw [ruleScan_filter, hfilter, ruleScan_single hname]

/-- Ended tables are scanned one after the other. -/
theorem ruleScan_ended (h : ∀ v ∈ vs, v.name = ruleSet → none ∈ v.attr) (type : CStr)
    (ptrs : List CStr) : ∃ r, ruleScan ruleSet type ptrs vs = .ok r := by
  induction vs with
  | nil => exact ⟨none, rfl⟩
  | cons v vs ih =>
    have hrest := ih fun w hw => h w (List.mem_cons_of_mem v hw)
    rw [ruleScan]
    by_cases hname : v.name = ruleSet
    · have hok : ∃ r, attrScan type v.attr ptrs 0 = .ok r :=
        attrScan_isOk_iff.mpr (.inl (h v List.mem_cons_self hname))
      obtain ⟨r, hr⟩ := hok
      rw [if_neg (not_not.mpr hname), hr]
      cases r with
      | none => exact hrest
      | some a => exact ⟨some a, rfl⟩
    · rw [if_pos hname]
      exact hrest

/-- The rewriting scan finds the buffer full if the rewritten rule is too long for it. -/
theorem attrLoop_eq_none_iff (schema : List CStr) (attrName newAttr r : CStr) :
    attrLoop attrName newAttr (schema.zip ((r.fields ATTR_SEP).take MAX_ATTR_NUM)) CStr.empty =
        none ↔
      EZPLIB_BUF_LEN ≤ (joinAttrs (rebuilt schema r attrName newAttr)).len + 1 := by
  rw [attrLoop_eq]
  change (emitAll ATTR_SEP _ (rebuilt schema r attrName newAttr) CStr.empty).toOption = none ↔ _
  generalize rebuilt schema r attrName newAttr = cut
  by_cases hcut : cut = []
  · subst hcut
    decide
  · rw [emitAll_join ATTR_SEP _ hcut, ← not_lt]
    change _ ↔ ¬ (CStr.join ATTR_SEP _ cut).len + 1 < EZPLIB_BUF_LEN
    split_ifs with hroom
    · simp [hroom, Except.toOption]
    · simp [hroom, Except.toOption]

/-- Showing an attribute reads no table. -/
theorem shown_stays_iff {bsize : ℕ} {x : Except Fault (Option (Attr × CStr))}
    (hx : ∀ e, x = .error e → ∃ i, e = .outOfTable i) :
    StaysInTable (shown bsize x) ↔ ∃ r, x = .ok r := by
  cases x with
  | error e =>
    obtain ⟨i, rfl⟩ := hx e rfl
    exact iff_of_false (not_staysInTable i) fun ⟨r, h⟩ => by cases h
  | ok r =>
    refine iff_of_true ?_ ⟨r, rfl⟩
    cases r with
    | none => exact staysInTable_ok _
    | some a =>
      rw [shown]
      cases a.1.funcOrig with
      | showValue => exact staysInTable_ok _
      | showB64Value =>
        rw [Show.run, showB64Value]
        split
        · exact staysInTable_ok _
        · exact fun i h => by cases h

theorem replaced_stays_iff {u : Unspecified} {nth : ℤ} {M : Variables}
    {x : Except Fault (Option CStr)} (hx : ∀ e, x = .error e → ∃ i, e = .outOfTable i) :
    StaysInTable (onMap (replaced u ruleSet nth x) M).1 ↔ ∃ r, x = .ok r := by
  cases x with
  | error e =>
    obtain ⟨i, rfl⟩ := hx e rfl
    exact iff_of_false (not_staysInTable i) fun ⟨r, h⟩ => by cases h
  | ok r =>
    refine iff_of_true ?_ ⟨r, rfl⟩
    cases r with
    | none => exact staysInTable_ok _
    | some tmp =>
      rw [replaced, onMap_bind]
      exact staysInTable_ok _

end

/-- A call that stays in the tables does what the call with the names of the tables does. -/
theorem ezplibReplaceAttr_refines {u : Unspecified} {M M' : Variables} {ruleSet : CStr} {nth : ℤ}
    {attrName newAttr : CStr} {ret : ℤ}
    (h : onMap (InMemory.ezplibReplaceAttr u ruleSet nth attrName newAttr) M = (.ok ret, M')) :
    onMap (UserNvram.ezplibReplaceAttr u (rules.map RuleTable.toRule) ruleSet nth attrName newAttr)
      M = (ret, M') := by
  unfold InMemory.ezplibReplaceAttr at h
  unfold UserNvram.ezplibReplaceAttr
  split_ifs at h ⊢ with hargs
  · cases h
    rfl
  · rw [onMap_bind] at h ⊢
    generalize onMap (ezplibGetRule u ruleSet nth EZPLIB_BUF_LEN) M = r at h ⊢
    split_ifs at h ⊢ with hret
    · cases h
      rfl
    · have hmap : ((rules.map RuleTable.toRule).find? fun v => v.name = ruleSet) =
          (rules.find? fun v => v.name = ruleSet).map RuleTable.toRule := List.find?_map
      rw [hmap]
      cases hfind : rules.find? fun v => v.name = ruleSet with
      | none =>
        rw [hfind] at h
        cases h
        rfl
      | some v =>
        rw [hfind] at h
        dsimp only [Option.map_some, RuleTable.toRule] at h ⊢
        cases hscan : replaceScan attrName newAttr v.attr
            ((r.1.2.fields ATTR_SEP).take MAX_ATTR_NUM) 0 CStr.empty with
        | error e =>
          rw [hscan] at h
          cases h
        | ok x =>
          rw [hscan] at h
          rw [← replaceScan_ok hscan]
          cases x with
          | none =>
            cases h
            rfl
          | some tmp =>
            rw [replaced, onMap_bind] at h
            cases h
            rfl

end InMemory

open InMemory in
/-- Both scans stay in the tables exactly if no rule is scanned, or the table of the rule set is
ended, or the rule has fewer attributes than it has entries, or the attribute is there and the
rewritten rule is too long for the buffer. -/
theorem attrScans_stay_iff (u : Unspecified) (M : Variables) (ruleSet : CStr) (nth : ℤ)
    (attrName newAttr : CStr) (bsize : ℕ) :
    StaysInTable (onMap (InMemory.ezplibGetAttrVal u ruleSet nth attrName bsize) M).1 ∧
        StaysInTable (onMap (InMemory.ezplibReplaceAttr u ruleSet nth attrName newAttr) M).1 ↔
      let r := (onMap (ezplibGetRule u ruleSet nth EZPLIB_BUF_LEN) M).1
      ruleSet = CStr.empty ∨ attrName = CStr.empty ∨ r.1 < 0 ∨
        ∀ v ∈ rules, v.name = ruleSet → none ∈ v.attr ∨
          (r.2.fields ATTR_SEP).length < v.attr.length ∨
            (∃ attr, some attr ∈ v.attr ∧ attr.name = attrName) ∧
              EZPLIB_BUF_LEN ≤
                (joinAttrs (rebuilt v.attr.names r.2 attrName newAttr)).len + 1 := by
  dsimp only
  by_cases hargs : ruleSet = CStr.empty ∨ attrName = CStr.empty
  · rw [InMemory.ezplibGetAttrVal, if_pos hargs, InMemory.ezplibReplaceAttr, if_pos hargs]
    apply iff_of_true ⟨staysInTable_ok _, staysInTable_ok _⟩
    rcases hargs with h | h
    · exact .inl h
    · exact .inr (.inl h)
  · obtain ⟨hset, hattr⟩ := not_or.mp hargs
    rw [InMemory.ezplibGetAttrVal, if_neg hargs, InMemory.ezplibReplaceAttr, if_neg hargs,
      onMap_bind, onMap_bind]
    simp only [hset, hattr, false_or]
    generalize onMap (ezplibGetRule u ruleSet nth EZPLIB_BUF_LEN) M = r
    obtain ⟨⟨ret, word⟩, M'⟩ := r
    by_cases hret : ret < 0
    · simp only [hret, if_true, true_or, iff_true]
      exact ⟨staysInTable_ok _, staysInTable_ok _⟩
    · simp only [hret, if_false, false_or]
      by_cases hun : ∃ v ∈ rules, v.name = ruleSet ∧ none ∉ v.attr
      · -- One table, without an end.
        obtain ⟨v, hv, hname, hend⟩ := hun
        have hfilter := filter_name hv
        rw [hname] at hfilter
        have honly : ∀ w ∈ rules, w.name = ruleSet → w = v := by
          intro w hw hw'
          have hmem : w ∈ rules.filter fun w => w.name = ruleSet :=
            List.mem_filter.mpr ⟨hw, by simpa using hw'⟩
          rw [hfilter] at hmem
          exact List.mem_singleton.mp hmem
        have hfind : rules.find? (fun w => w.name = ruleSet) = some v := by
          rw [← List.head?_filter, hfilter]
          rfl
        have hlen : ((word.fields ATTR_SEP).take MAX_ATTR_NUM).length < v.attr.length ↔
            (word.fields ATTR_SEP).length < v.attr.length := by
          have hshort := tables_short v hv
          rw [List.length_take]
          omega
        rw [ruleScan_rules hv hname, hfind]
        dsimp only
        rw [Program.pure_eq, onMap_done, shown_stays_iff fun _ => attrScan_error,
          replaced_stays_iff fun _ => replaceScan_error, attrScan_isOk_iff, replaceScan_isOk_iff,
          attrLoop_eq_none_iff, hlen]
        constructor
        · rintro ⟨hget, hreplace⟩ w hw hw'
          rw [honly w hw hw']
          rcases hget with h | h | hget
          · exact .inl h
          · exact .inr (.inl h)
          · exact hreplace.imp_right fun h => h.imp_right fun h => ⟨hget, h⟩
        · intro h
          have hcond := h v hv hname
          exact ⟨hcond.imp_right fun h => h.imp_right fun h => h.1,
            hcond.imp_right fun h => h.imp_right fun h => h.2⟩
      · -- Every table of the rule set is ended.
        have hended : ∀ v ∈ rules, v.name = ruleSet → none ∈ v.attr := by
          intro v hv hname
          by_contra hend
          exact hun ⟨v, hv, hname, hend⟩
        apply iff_of_true
        · constructor
          · rw [Program.pure_eq, onMap_done]
            obtain ⟨r, hr⟩ := ruleScan_ended hended attrName
              ((word.fields ATTR_SEP).take MAX_ATTR_NUM)
            rw [hr]
            exact (shown_stays_iff fun e he => by cases he).mpr ⟨r, rfl⟩
          · cases hfind : rules.find? fun v => v.name = ruleSet with
            | none => exact staysInTable_ok _
            | some v =>
              have hname : v.name = ruleSet := by simpa using List.find?_some hfind
              have hend := hended v (List.mem_of_find?_eq_some hfind) hname
              dsimp only
              rw [replaced_stays_iff fun _ => replaceScan_error]
              exact replaceScan_isOk_iff.mpr (.inl hend)
        · exact fun v hv hname => .inl (hended v hv hname)

open InMemory in
/-- The rule for the tunnels as it is delivered has as many attributes as its table has entries. A
search for another attribute goes on behind the table. -/
theorem pptp_scans_leave :
    ¬ (StaysInTable (onMap (InMemory.ezplibGetAttrVal clean
          (.ofString "wan_pptp_l2tp_global_rule") 0 (.ofString "name") 64)
          (oneSet "wan_pptp_l2tp_global_rule" (.ofString "0^0^0"))).1 ∧
      StaysInTable (onMap (InMemory.ezplibReplaceAttr clean
          (.ofString "wan_pptp_l2tp_global_rule") 0 (.ofString "name") (.ofString "1"))
          (oneSet "wan_pptp_l2tp_global_rule" (.ofString "0^0^0"))).1) := by
  rintro ⟨hget, -⟩
  exact hget 3 (by decide +kernel)

end EzpFirmware.UserNvram
