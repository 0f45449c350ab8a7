import EzpFirmware.Qcloud.AddressRuns

/-! # Entries that depend on their items alone

The entries of a list are those of its items if and only if the items that are read fit and,
where there are several, nothing can be found in an item that another one lacks.
-/
namespace EzpFirmware.Qcloud
open Lib

variable {dotted : Bool} {defPort : ℤ} {maxNum : ℕ} {items : List (Item dotted)}

/-- The copy of a list. -/
theorem read_list (hlen : (listText items).len ≤ ADDR_STR_LEN) (stack : Stack) :
    utilReadIpv4PortList defPort dotted maxNum stack (listText items) =
      itemLoop (listText items).val defPort dotted (([] : List UInt8).length + (listText items).len)
        maxNum ([] ++ (listText items).val ++ 0 :: stack.rest) ([] : List UInt8).length
        stack.ipAddr := by
  have hmem : (listText items).stored ++ stack.rest =
      [] ++ (listText items).val ++ 0 :: stack.rest := by
    simp [CStr.stored]
  rw [utilReadIpv4PortList, if_neg (not_lt.mpr hlen), hmem, List.length_nil, Nat.zero_add]

/-- An item alone. -/
theorem read_single (x : Item dotted) (hmax : maxNum ≠ 0) (hlen : x.cstr.len ≤ ADDR_STR_LEN)
    (stack : Stack) :
    utilReadIpv4PortList defPort dotted maxNum stack x.cstr =
      if dwordAlign (URL_STR_LEN + 1) ≤ x.val.text.length then .overflow
      else .entries [x.val.entry x.val.text defPort x.val.path stack.ipAddr] := by
  obtain ⟨n, rfl⟩ := Nat.exists_eq_add_one_of_ne_zero hmax
  have hlist : x.cstr = listText [x] := rfl
  have hlead : prefixLen (listText [x]).val = x.val.protocolText.length :=
    prefixLen_own x fun _ => placeOf_of_noSlash List.not_mem_nil
  rw [hlist] at hlen
  rw [hlist, read_list hlen, itemLoop_first (listText_eq x []) (.inl rfl) hlead,
    if_pos (show behindFirst ([] : List (Item dotted)) = [] from rfl), itemLoop_end,
    listText_single, x.property.pathOf_text]
  rfl

/-- An item of a list is not longer than the list. -/
theorem item_le_listText {x : Item dotted} (hx : x ∈ items) :
    x.cstr.len ≤ (listText items).len := by
  induction items with
  | nil => cases hx
  | cons y items ih =>
    have hlen := congrArg List.length (listText_eq y items)
    rw [List.length_append, ← Parts.text] at hlen
    obtain rfl | hx := List.mem_cons.mp hx
    · rw [CStr.len, CStr.len, hlen]
      exact Nat.le_add_right _ _
    · have hne : items ≠ [] := List.ne_nil_of_mem hx
      rw [behindFirst, if_neg hne, List.length_cons] at hlen
      have hrest := ih hx
      rw [CStr.len, CStr.len] at hrest ⊢
      omega

/-- The path of separate items. -/
theorem pathOf_separate (hmax : maxNum ≠ 0) (h : Separate maxNum items) {x : Item dotted}
    (hx : x ∈ items) : pathOf (listText items).val = x.val.path := by
  cases items with
  | nil => cases hx
  | cons y items =>
    by_cases hnil : items = []
    · subst hnil
      rw [List.mem_singleton.mp hx, listText_single, y.property.pathOf_text]
    · obtain hone | hzero | ⟨hpath, hprotocol⟩ := h.apart
      · rw [List.length_cons] at hone
        exact absurd (List.eq_nil_of_length_eq_zero (by omega)) hnil
      · exact absurd hzero hmax
      · have hslash : PATH ∉ (listText items).val := (slash_listText items).mpr fun z hz =>
          ⟨hprotocol z hz, hpath z (List.mem_cons_of_mem y hz)⟩
        have hlead := prefixLen_own y fun _ => placeOf_of_noSlash hslash
        rw [listText_eq] at hlead ⊢
        rw [hpath x hx, y.property.pathOf_none hlead (hpath y List.mem_cons_self), behindFirst,
          if_neg hnil, List.mem_cons, not_or]
        exact ⟨by decide, hslash⟩

/-- Separate items give their entries. -/
theorem independent_of_separate (h : Separate maxNum items) :
    Independent defPort maxNum items := by
  intro hlen stack
  by_cases hmax : maxNum = 0
  · subst hmax
    exact ⟨[], read_list hlen stack, .nil⟩
  · have htail : ∀ x ∈ items.tail, x.val.protocol = none ∧ x.val.path = none := by
      intro x hx
      obtain hone | hzero | ⟨hpath, hprotocol⟩ := h.apart
      · have hlong := List.length_pos_of_mem hx
        rw [List.length_tail] at hlong
        omega
      · exact absurd hzero hmax
      · exact ⟨hprotocol x hx, hpath x (List.mem_of_mem_tail hx)⟩
    refine ⟨_, (read_list hlen stack).trans (itemLoop_run maxNum h.fits h.taken htail), ?_⟩
    rw [List.forall₂_map_right_iff, List.forall₂_same]
    intro x hx stack'
    have hitem : x ∈ items := List.mem_of_mem_take hx
    have hfits : ¬dwordAlign (URL_STR_LEN + 1) ≤ x.val.text.length := not_le.mpr (h.fits x hx)
    rw [read_single x hmax ((item_le_listText hitem).trans hlen), if_neg hfits,
      pathOf_separate hmax h hitem, (h.taken x hx).entry_eq _ _ stack'.ipAddr 0]

/-! ## What independence asks for -/

/-- An item that is independent of the stack fits and has an address. -/
theorem fits_of_read {x : Item dotted} (hmax : maxNum ≠ 0) (hlen : x.cstr.len ≤ ADDR_STR_LEN)
    {e : UrlT} (h : ∀ stack, utilReadIpv4PortList defPort dotted maxNum stack x.cstr =
      .entries [e]) :
    x.val.text.length < dwordAlign (URL_STR_LEN + 1) ∧ x.val.IsTaken := by
  have hfits : x.val.text.length < dwordAlign (URL_STR_LEN + 1) := by
    by_contra hlong
    have hread := h ⟨[], 0⟩
    rw [read_single x hmax hlen, if_pos (not_lt.mp hlong)] at hread
    cases hread
  refine ⟨hfits, fun hfour => ?_⟩
  have hentry (ipAddr : UInt32) :
      x.val.entry x.val.text defPort x.val.path ipAddr = e := by
    have hread := h ⟨[], ipAddr⟩
    rw [read_single x hmax hlen, if_neg (not_le.mpr hfits)] at hread
    exact (List.cons.inj (ListRead.entries.inj hread)).1
  by_contra hnone
  -- the value that the stack had is taken for the address
  have hsame := congrArg UrlT.ipAddr ((hentry 0).trans (hentry 1).symm)
  simp [Parts.entry, hfour, Parts.nextAddr, Option.not_isSome_iff_eq_none.mp hnone] at hsame

theorem exists_of_forall₂ {α β : Type*} {R : α → β → Prop} {as : List α} {bs : List β}
    (h : List.Forall₂ R as bs) {a : α} (ha : a ∈ as) : ∃ b, R a b := by
  induction h with
  | nil => cases ha
  | cons hab _ ih =>
    obtain rfl | ha := List.mem_cons.mp ha
    · exact ⟨_, hab⟩
    · exact ih ha

theorem ListRead.eq_of_cons {e e' : UrlT} {es : List UrlT} {r : ListRead}
    (h : r.cons e = .entries (e' :: es)) : e = e' := by
  cases r with
  | overflow => cases h
  | failed rc => cases h
  | entries es' => exact (List.cons.inj (ListRead.entries.inj h)).1

/-- The first entry of several items is that of the first item only if nothing stands in the
others that the first item could take. -/
theorem apart_of_first {x : Item dotted} (hnil : items ≠ []) (hmax : maxNum ≠ 0)
    (hlen : (listText (x :: items)).len ≤ ADDR_STR_LEN) {stack : Stack} {e : UrlT} {es : List UrlT}
    (hrun : utilReadIpv4PortList defPort dotted maxNum stack (listText (x :: items)) =
      .entries (e :: es))
    (haddr : e.addrStr = x.val.text) (hpath : e.path = x.val.path) :
    x.val.path = none ∧ ∀ y ∈ items, y.val.protocol = none ∧ y.val.path = none := by
  obtain ⟨n, rfl⟩ := Nat.exists_eq_add_one_of_ne_zero hmax
  obtain ⟨protocol, y, rest, htext, hrest, hlead, hown⟩ :=
    exists_round (x :: items) (List.cons_ne_nil x items)
  rw [read_list hlen, itemLoop_first htext hrest hlead] at hrun
  by_cases hlong : dwordAlign (URL_STR_LEN + 1) ≤ (protocol ++ y.val.body).length
  · rw [if_pos hlong] at hrun
    cases hrun
  rw [if_neg hlong] at hrun
  have hentry := ListRead.eq_of_cons hrun
  have hsame : protocol ++ y.val.body = x.val.text := (congrArg UrlT.addrStr hentry).trans haddr
  have hpaths : pathOf (listText (x :: items)).val = x.val.path :=
    (congrArg UrlT.path hentry).trans hpath
  obtain hcomma | ⟨hhead, hprotocol⟩ := hown
  · exact absurd (hsame ▸ List.mem_append_left y.val.body hcomma) x.property.comma_notMem
  · obtain rfl : x = y := Option.some.inj hhead
    rw [hprotocol, listText_eq] at hlead
    rw [listText_eq] at hpaths
    have hbehind : behindFirst items = COMMA :: (listText items).val := if_neg hnil
    have hnone : x.val.path = none := by
      cases hp : x.val.path with
      | none => rfl
      | some p =>
        rw [x.property.pathOf_some hlead hp, hp, hbehind] at hpaths
        simp at hpaths
    rw [hnone, x.property.pathOf_none hlead hnone, hbehind, List.mem_cons, not_or] at hpaths
    exact ⟨hnone, (slash_listText items).mp hpaths.2⟩

/-- Independent items are separate. -/
theorem separate_of_independent (hlen : (listText items).len ≤ ADDR_STR_LEN)
    (h : Independent defPort maxNum items) : Separate maxNum items := by
  by_cases hmax : maxNum = 0
  · subst hmax
    exact ⟨by simp, by simp, .inr (.inl rfl)⟩
  obtain ⟨es, hrun, hall⟩ := h hlen ⟨[], 0⟩
  have hsingle : ∀ x ∈ items.take maxNum,
      x.val.text.length < dwordAlign (URL_STR_LEN + 1) ∧ x.val.IsTaken := by
    intro x hx
    obtain ⟨e, he⟩ := exists_of_forall₂ hall hx
    exact fits_of_read hmax ((item_le_listText (List.mem_of_mem_take hx)).trans hlen) he
  refine ⟨fun x hx => (hsingle x hx).1, fun x hx => (hsingle x hx).2, ?_⟩
  cases items with
  | nil => exact .inl (Nat.zero_le 1)
  | cons x items =>
    by_cases hnil : items = []
    · exact .inl (by simp [hnil])
    · obtain ⟨n, rfl⟩ := Nat.exists_eq_add_one_of_ne_zero hmax
      rw [List.take_succ_cons] at hall hsingle
      cases hall with
      | cons hx _ =>
        have hread := hx ⟨[], 0⟩
        rw [read_single x hmax ((item_le_listText List.mem_cons_self).trans hlen),
          if_neg (not_le.mpr (hsingle x List.mem_cons_self).1)] at hread
        obtain rfl := (List.cons.inj (ListRead.entries.inj hread)).1
        obtain ⟨hpath, hothers⟩ := apart_of_first hnil hmax hlen hrun rfl rfl
        refine .inr (.inr ⟨?_, fun y hy => (hothers y hy).1⟩)
        exact List.forall_mem_cons.mpr ⟨hpath, fun y hy => (hothers y hy).2⟩

/-! ## Lists of any items -/

/-- A list that is not refused for its length gives the entries of its items, each as its item
gives it alone, if and only if its items are separate. -/
theorem list_independent_iff (dotted : Bool) (defPort : ℤ) (maxNum : ℕ)
    (items : List (Item dotted)) :
    Independent defPort maxNum items ↔
      ADDR_STR_LEN < (listText items).len ∨ Separate maxNum items := by
  by_cases hlen : (listText items).len ≤ ADDR_STR_LEN
  · rw [or_iff_right (not_lt.mpr hlen)]
    exact ⟨separate_of_independent hlen, independent_of_separate⟩
  · exact iff_of_true (fun h => absurd h hlen) (.inl (not_le.mp hlen))

/-- A host without anything. -/
def hostParts : Parts := ⟨none, [0x61], none, none⟩

/-- The same host with a path. -/
def pathParts : Parts := ⟨none, [0x61], none, some [0x62]⟩

theorem hostParts_isItem : hostParts.IsItem false where
  plain := by decide +kernel
  protocol := by simp [hostParts]
  noProtocol _ := by decide
  address := by decide
  numeric h := nomatch h
  port := by simp [hostParts]

theorem pathParts_isItem : pathParts.IsItem false where
  plain := by decide +kernel
  protocol := by simp [pathParts]
  noProtocol _ := by decide
  address := by decide
  numeric h := nomatch h
  port := by simp [pathParts]

/-- In `a,a/b` the first host gets the path of the second one. -/
theorem path_of_another_item :
    ¬Independent 80 2 ([⟨hostParts, hostParts_isItem⟩, ⟨pathParts, pathParts_isItem⟩] :
      List (Item false)) := by
  intro h
  obtain hone | hzero | ⟨hpath, -⟩ := (separate_of_independent (by decide) h).apart
  · exact absurd hone (by decide)
  · cases hzero
  · exact absurd (hpath ⟨pathParts, pathParts_isItem⟩ (by simp)) (by decide)

end EzpFirmware.Qcloud
