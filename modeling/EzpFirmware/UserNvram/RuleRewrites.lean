import EzpFirmware.UserNvram.Migrations

/-! # The loop over a set

The rounds of a loop rewrite the rules of a set from the first one on, as far as
the set has room for them. A second loop that takes the rewrites back can meet
rules that were not rewritten.
-/
namespace EzpFirmware.UserNvram
open Lib

/-- The first `n` rules of a stored set, rewritten as far as there is room. -/
def rewriteSet (f : CStr → CStr) (n : ℕ) : Option CStr → Option CStr :=
  Option.map fun text => joinRules (rewriteFirst ruleSize EZPLIB_BUF_LEN f (storedRules text) n)

/-- A set, unless it is missing, has rules like this. One that is empty is not looped over. -/
def Formatted (P : CStr → Prop) (n : ℕ) (value : Option CStr) : Prop :=
  ∀ text, value = some text → (∀ r ∈ storedRules text, P r) ∧ (text = CStr.empty → n = 0)

section
variable {u : Unspecified} {M : Variables} {ruleSet r w : CStr} {rs : List CStr}
  {P : CStr → Prop} {f h : CStr → CStr} {p : ℕ → Migration CStr}

theorem storable_rewriteFirst (hrs : ∀ r ∈ rs, Storable r ∧ Storable (f r)) {n : ℕ} :
    ∀ x ∈ rewriteFirst ruleSize EZPLIB_BUF_LEN f rs n, Storable x := by
  intro x hx
  obtain ⟨j, hj⟩ := List.mem_iff_getElem?.mp hx
  obtain ⟨r, hr, rfl | rfl⟩ := mem_rewriteFirst hj
  · exact (hrs x (List.mem_of_getElem? hr)).1
  · exact (hrs r (List.mem_of_getElem? hr)).2

theorem rewriteFirst_ne (hne : rs ≠ []) (n : ℕ) :
    rewriteFirst ruleSize EZPLIB_BUF_LEN f rs n ≠ [] := by
  intro hnil
  have hlen := congrArg List.length hnil
  rw [rewriteFirst_length, List.length_nil] at hlen
  exact hne (List.length_eq_zero_iff.mp hlen)

/-- After `n` rounds the first `n` rules are rewritten. -/
theorem HoldsRules.eachRule (h : HoldsRules M ruleSet rs) (hp : Computes ruleSet P f p)
    (hP : ∀ r ∈ rs, P r) (hf : ∀ r ∈ rs, Storable (f r)) (n : ℕ) :
    runOn (UserNvram.eachRule u ruleSet n p) M =
      (.ok (), Function.update M ruleSet
        (some (joinRules (rewriteFirst ruleSize EZPLIB_BUF_LEN f rs n)))) := by
  rw [UserNvram.eachRule, Int.toNat_natCast]
  induction n with
  | zero => exact congrArg (Prod.mk _) h.update_self.symm
  | succ n ih =>
    have hnow := h.of_update (rewriteFirst_ne h.ne n)
      (storable_rewriteFirst (n := n) fun r hr => ⟨h.rules r hr, hf r hr⟩)
    have hsame : (rewriteFirst ruleSize EZPLIB_BUF_LEN f rs n)[n]? = rs[n]? :=
      getElem?_rewriteFirst_above le_rfl
    obtain ⟨w, hw, hwf⟩ := hp.rule _ _ n hnow fun r hr =>
      hP r (List.mem_of_getElem? (hsame ▸ hr))
    have hstep := hnow.replaceRule (u := u) (i := n) (w := w) fun hn hroom => by
      have hr := List.getElem?_eq_getElem hn
      rw [hwf _ hr hroom]
      exact hf _ (List.mem_of_getElem? (hsame ▸ hr))
    rw [List.range_succ, runOn_forEach_concat ih, runOn_replaceBy hw, hstep, Function.update_idem,
      rewriteFirst]
    cases hr : rs[n]? with
    | none =>
      have hlen : (rewriteFirst ruleSize EZPLIB_BUF_LEN f rs n).length ≤ n :=
        List.getElem?_eq_none_iff.mp (hsame.trans hr)
      rw [replaceAt, List.set_eq_of_length_le hlen, ite_self]
    | some r =>
      by_cases hroom : total ruleSize (rewriteFirst ruleSize EZPLIB_BUF_LEN f rs n) ≤ EZPLIB_BUF_LEN
      · rw [hwf r (hsame.trans hr) hroom]
      · dsimp only
        rw [replaceAt, replaceAt, if_neg fun hc => hroom hc.1, if_neg fun hc => hroom hc.1]

/-- On a set that is missing the loop does nothing. -/
theorem eachRule_missing (hset : ruleSet ≠ CStr.empty) (hM : M ruleSet = none)
    (hp : Computes ruleSet P f p) (n : ℤ) :
    runOn (UserNvram.eachRule u ruleSet n p) M = (.ok (), M) := by
  have hreplace (i : ℕ) (w : CStr) : (onMap (ezplibReplaceRule u ruleSet i w) M).2 = M := by
    rw [ezplibReplaceRule, if_neg hset, onMap_bind, ezplibGetRuleNum, onMap_bind, onMap_get, hM]
    rfl
  rw [UserNvram.eachRule]
  induction List.range n.toNat with
  | nil => rfl
  | cons i is ih =>
    obtain ⟨w, hw⟩ := hp.missing M i hM
    rw [runOn_forEach_cons, runOn_replaceBy hw, hreplace]
    exact ih

theorem Formatted.imp {Q : CStr → Prop} {n : ℕ} {value : Option CStr} (hM : Formatted P n value)
    (hPQ : ∀ r, RULE_SEP ∉ r.val → P r → Q r) : Formatted Q n value := fun text htext =>
  ⟨fun r hr => hPQ r (free_of_mem_storedRules hr) ((hM text htext).1 r hr), (hM text htext).2⟩

/-- The loop over a set rewrites its rules. -/
theorem eachRule_run (hset : ruleSet ≠ CStr.empty) {nrule : ℤ}
    (hM : Formatted (fun r => P r ∧ Storable r ∧ Storable (f r)) nrule.toNat (M ruleSet))
    (hp : Computes ruleSet P f p) :
    runOn (UserNvram.eachRule u ruleSet nrule p) M =
      (.ok (), Function.update M ruleSet (rewriteSet f nrule.toNat (M ruleSet))) := by
  cases htext : M ruleSet with
  | none =>
    have hnone : rewriteSet f nrule.toNat none = M ruleSet := htext.symm
    rw [eachRule_missing hset htext hp, hnone, Function.update_eq_self]
  | some text =>
    obtain ⟨hrules, hempty⟩ := hM text htext
    rw [rewriteSet, Option.map_some]
    by_cases htext0 : text = CStr.empty
    · subst htext0
      have hstored : storedRules CStr.empty = [] := rfl
      rw [UserNvram.eachRule, hempty rfl, hstored, rewriteFirst]
      have hsame : some (joinRules []) = M ruleSet := htext.symm
      rw [hsame, Function.update_eq_self]
      rfl
    · rw [storedRules_of_ne htext0] at hrules ⊢
      have h : HoldsRules M ruleSet (text.fields RULE_SEP) :=
        ⟨hset, by rw [htext, joinRules_fields], CStr.fieldsOf_ne_nil _ _, fun r hr => (hrules r hr).2.1⟩
      have hrun := h.eachRule (u := u) hp (fun r hr => (hrules r hr).1)
        (fun r hr => (hrules r hr).2.2) nrule.toNat
      rw [← hrun, UserNvram.eachRule, UserNvram.eachRule, Int.toNat_natCast]

/-! ## Two loops -/

theorem storedRules_joinRules_storable (hrs : ∀ r ∈ rs, Storable r) :
    storedRules (joinRules rs) = rs := by
  by_cases hne : rs = []
  · subst hne
    rfl
  · exact storedRules_joinRules (fun r hr => (hrs r hr).free) (joinRules_ne hne hrs)

/-- What the rules of a set are after the loop. -/
theorem Formatted.rewrite {Q : CStr → Prop} {n : ℕ} {value : Option CStr}
    (hM : Formatted P n value)
    (hPQ : ∀ r, RULE_SEP ∉ r.val → P r → Storable r ∧ Storable (f r) ∧ Q r ∧ Q (f r)) :
    Formatted Q n (rewriteSet f n value) := by
  intro text' htext'
  obtain ⟨text, htext, rfl⟩ := Option.map_eq_some_iff.mp htext'
  obtain ⟨hrules, hempty⟩ := hM text htext
  have hall : ∀ r ∈ storedRules text, Storable r ∧ Storable (f r) ∧ Q r ∧ Q (f r) :=
    fun r hr => hPQ r (free_of_mem_storedRules hr) (hrules r hr)
  have hnew := storable_rewriteFirst (n := n) fun r hr => ⟨(hall r hr).1, (hall r hr).2.1⟩
  rw [storedRules_joinRules_storable hnew]
  refine ⟨fun x hx => ?_, fun h0 => ?_⟩
  · obtain ⟨j, hj⟩ := List.mem_iff_getElem?.mp hx
    obtain ⟨r, hr, rfl | rfl⟩ := mem_rewriteFirst hj
    · exact (hall x (List.mem_of_getElem? hr)).2.2.1
    · exact (hall r (List.mem_of_getElem? hr)).2.2.2
  · apply hempty
    by_contra hne
    have hrs : storedRules text ≠ [] := fun h => hne (storedRules_empty_iff.mp h)
    exact joinRules_ne (rewriteFirst_ne hrs n) hnew h0

/-- What a rewrite keeps of a rule the loop keeps of every rule. -/
theorem map_rewriteSet {β : Type} (key : CStr → β) {n : ℕ} {value : Option CStr}
    (hM : Formatted P n value)
    (hkey : ∀ r, RULE_SEP ∉ r.val → P r → Storable r ∧ Storable (f r) ∧ key (f r) = key r) :
    (rewriteSet f n value).map (fun text => (storedRules text).map key) =
      value.map fun text => (storedRules text).map key := by
  cases value with
  | none => rfl
  | some text =>
    have hall : ∀ r ∈ storedRules text, Storable r ∧ Storable (f r) ∧ key (f r) = key r :=
      fun r hr => hkey r (free_of_mem_storedRules hr) ((hM text rfl).1 r hr)
    have hnew := storable_rewriteFirst (n := n) fun r hr => ⟨(hall r hr).1, (hall r hr).2.1⟩
    rw [rewriteSet, Option.map_some, Option.map_some, storedRules_joinRules_storable hnew,
      Option.map_some]
    congr 1
    apply List.ext_getElem?
    intro j
    rw [List.getElem?_map, List.getElem?_map]
    cases hx : (rewriteFirst ruleSize EZPLIB_BUF_LEN f (storedRules text) n)[j]? with
    | none =>
      rw [List.getElem?_eq_none_iff, rewriteFirst_length] at hx
      rw [List.getElem?_eq_none hx]
    | some x =>
      obtain ⟨r, hr, rfl | rfl⟩ := mem_rewriteFirst hx
      · rw [hr]
      · rw [hr, Option.map_some, Option.map_some, (hall r (List.mem_of_getElem? hr)).2.2]

/-- The two loops restore a set if they restore the list of its rules. -/
theorem rewriteSet_rewriteSet {n : ℕ} {text : CStr}
    (hrules : ∀ r ∈ storedRules text, Storable r ∧ Storable (f r) ∧ Storable (h r) ∧
      Storable (h (f r))) :
    rewriteSet h n (rewriteSet f n (some text)) = some text ↔
      rewriteFirst ruleSize EZPLIB_BUF_LEN h
        (rewriteFirst ruleSize EZPLIB_BUF_LEN f (storedRules text) n) n = storedRules text := by
  have hnew := storable_rewriteFirst (n := n) fun r hr => ⟨(hrules r hr).1, (hrules r hr).2.1⟩
  have hback : ∀ x ∈ rewriteFirst ruleSize EZPLIB_BUF_LEN f (storedRules text) n,
      Storable x ∧ Storable (h x) := by
    intro x hx
    obtain ⟨j, hj⟩ := List.mem_iff_getElem?.mp hx
    obtain ⟨r, hr, rfl | rfl⟩ := mem_rewriteFirst hj
    · exact ⟨hnew x hx, (hrules x (List.mem_of_getElem? hr)).2.2.1⟩
    · exact ⟨hnew _ hx, (hrules r (List.mem_of_getElem? hr)).2.2.2⟩
  rw [rewriteSet, rewriteSet, Option.map_some, Option.map_some,
    storedRules_joinRules_storable hnew, Option.some.injEq]
  constructor
  · intro hsame
    rw [← storedRules_joinRules_storable (storable_rewriteFirst hback), hsame]
  · intro hsame
    rw [hsame, joinRules_storedRules]

/-- A loop that takes the rewrites back and leaves other rules alone restores a set. -/
theorem rewriteSet_restores {n : ℕ} {value : Option CStr} (hM : Formatted P n value)
    (hback : ∀ r, RULE_SEP ∉ r.val → P r →
      Storable r ∧ Storable (f r) ∧ h r = r ∧ h (f r) = r ∧ r.len < (f r).len) :
    rewriteSet h n (rewriteSet f n value) = value := by
  cases value with
  | none => rfl
  | some text =>
    have hall : ∀ r ∈ storedRules text, _ := fun r hr =>
      hback r (free_of_mem_storedRules hr) ((hM text rfl).1 r hr)
    apply (rewriteSet_rewriteSet fun r hr => ?_).mpr
    · apply rewriteFirst_restores
      intro r hr
      obtain ⟨-, -, hsame, hfr, hless⟩ := hall r hr
      exact ⟨hsame, hfr, .inr (Nat.succ_lt_succ hless)⟩
    · obtain ⟨hr, hfr, hsame, hhf, -⟩ := hall r hr
      rw [hsame, hhf]
      exact ⟨hr, hfr, hr, hr⟩

/-- There is room for `c` more bytes in each of the first `n` rules of the set, or for none of the
loops, or there are no such rules. -/
def GrowsWithin (c n : ℕ) (value : Option CStr) : Prop :=
  ∀ text, value = some text →
    let m := min n (storedRules text).length
    m = 0 ∨ text.len + c * m + 1 < EZPLIB_BUF_LEN ∨ EZPLIB_BUF_LEN ≤ text.len

/-- A loop that takes the rewrites back but spoils other rules restores a set exactly if all its
rules were rewritten, or none was read. -/
theorem rewriteSet_restores_iff {c n : ℕ} {value : Option CStr} (hM : Formatted P n value)
    (hc : 0 < c)
    (hback : ∀ r, RULE_SEP ∉ r.val → P r → Storable r ∧ Storable (f r) ∧ Storable (h r) ∧
      (f r).len = r.len + c ∧ h (f r) = r ∧ (h r).len < r.len) :
    rewriteSet h n (rewriteSet f n value) = value ↔ GrowsWithin c n value := by
  cases value with
  | none => exact iff_of_true rfl fun text htext => by cases htext
  | some text =>
    have hall : ∀ r ∈ storedRules text, _ := fun r hr =>
      hback r (free_of_mem_storedRules hr) ((hM text rfl).1 r hr)
    have hstorable : ∀ r ∈ storedRules text, Storable r ∧ Storable (f r) ∧ Storable (h r) ∧
        Storable (h (f r)) := by
      intro r hr
      obtain ⟨hr, hfr, hhr, -, hback, -⟩ := hall r hr
      rw [hback]
      exact ⟨hr, hfr, hhr, hr⟩
    have hgrow : ∀ r ∈ storedRules text, ruleSize (f r) = ruleSize r + c := by
      intro r hr
      rw [ruleSize, ruleSize, (hall r hr).2.2.2.1, Nat.add_right_comm]
    have hspoil : ∀ r ∈ storedRules text, ruleSize (h r) < ruleSize r :=
      fun r hr => Nat.succ_lt_succ (hall r hr).2.2.2.2.2
    rw [rewriteSet_rewriteSet hstorable, rewriteFirst_restores_iff hgrow
      (fun r hr => (hall r hr).2.2.2.2.1) hspoil hc]
    have hiff : GrowsWithin c n (some text) ↔
        let m := min n (storedRules text).length
        m = 0 ∨ text.len + c * m + 1 < EZPLIB_BUF_LEN ∨ EZPLIB_BUF_LEN ≤ text.len :=
      ⟨fun hgrows => hgrows text rfl, fun hm text htext => by cases htext; exact hm⟩
    rw [hiff]
    by_cases hne : storedRules text = []
    · rw [hne, List.length_nil, Nat.min_zero]
      exact iff_of_true (.inl rfl) (.inl rfl)
    · have htotal : total ruleSize (storedRules text) = text.len + 1 := by
        rw [joinRules_total hne, joinRules_storedRules]
      rw [htotal]
      dsimp only
      omega

end

end EzpFirmware.UserNvram
