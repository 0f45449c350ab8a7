import EzpFirmware.Qcloud.AddressRounds

/-! # Lists of addresses item by item

A list is parsed item by item when only the first item has a protocol and no item has a path.
Otherwise the first entry already has something of another item.
-/
namespace EzpFirmware.Qcloud
open Lib

variable {dotted : Bool} {defPort : ℤ} {maxNum : ℕ}

/-- The text of an item. -/
def Item.cstr (x : Item dotted) : CStr := ⟨x.val.text, zero_notMem x.property.plain⟩

/-- The items with commas between them. -/
def listText (items : List (Item dotted)) : CStr :=
  CStr.join COMMA COMMA_ne (items.map Item.cstr)

/-- Every entry of a list is what its item gives alone, whatever the stack has in it, and no
write leaves a buffer. -/
def Independent (defPort : ℤ) (maxNum : ℕ) (items : List (Item dotted)) : Prop :=
  (listText items).len ≤ ADDR_STR_LEN → ∀ stack, ∃ es,
    utilReadIpv4PortList defPort dotted maxNum stack (listText items) = .entries es ∧
      List.Forall₂ (fun x e => ∀ stack',
        utilReadIpv4PortList defPort dotted maxNum stack' x.cstr = .entries [e])
        (items.take maxNum) es

/-- What looks like four numbers is an address. -/
def Parts.IsTaken (x : Parts) : Prop :=
  scansFour x.address = true → (inetAton (CStr.read x.address)).isSome = true

/-- The items that are read fit into their entries and have no numbers that are no address; and
of several items only the first one may have a protocol and none has a path. -/
structure Separate (maxNum : ℕ) (items : List (Item dotted)) : Prop where
  fits : ∀ x ∈ items.take maxNum, x.val.text.length < dwordAlign (URL_STR_LEN + 1)
  taken : ∀ x ∈ items.take maxNum, x.val.IsTaken
  apart : items.length ≤ 1 ∨ maxNum = 0 ∨
    (∀ x ∈ items, x.val.path = none) ∧ ∀ x ∈ items.tail, x.val.protocol = none

/-! ## The text of an item -/

variable {x : Parts}

theorem listText_cons (x : Item dotted) {items : List (Item dotted)} (h : items ≠ []) :
    (listText (x :: items)).val = x.val.text ++ COMMA :: (listText items).val := by
  rw [listText, List.map_cons, CStr.join_cons COMMA_ne _ (by simpa using h)]
  rfl

theorem listText_single (x : Item dotted) : (listText [x]).val = x.val.text := rfl

theorem Parts.IsItem.comma_notMem (h : x.IsItem dotted) : COMMA ∉ x.text :=
  fun hb => (h.plain COMMA hb).2.1 rfl

theorem prefixLen_protocol {p : List UInt8} (hp : COLON ∉ p) (rest : List UInt8) :
    prefixLen (p ++ PREFIX ++ rest) = (p ++ PREFIX).length := by
  have hplace : placeOf (p ++ PREFIX ++ rest) PREFIX = some p.length := placeOf_behind hp rest
  rw [prefixLen, hplace, List.length_append]
  rfl

theorem prefixLen_of_none {text : List UInt8} (h : placeOf text PREFIX = none) :
    prefixLen text = 0 := by
  rw [prefixLen, h]
  rfl

/-- The protocol of an item with anything behind a comma in which there is none. -/
theorem Parts.IsItem.prefixLen_append (h : x.IsItem dotted) {rest : List UInt8}
    (hrest : rest = [] ∨ ∃ behind, rest = COMMA :: behind ∧
      (x.protocol = none → placeOf behind PREFIX = none)) :
    prefixLen (x.protocolText ++ x.body ++ rest) = x.protocolText.length := by
  rw [List.append_assoc, protocolText]
  cases hprotocol : x.protocol with
  | some p => exact prefixLen_protocol (h.protocol p hprotocol) _
  | none =>
    apply prefixLen_of_none
    have hbody : placeOf x.body PREFIX = none := placeOf_eq_none.mpr (h.noProtocol hprotocol)
    obtain rfl | ⟨behind, rfl, hbehind⟩ := hrest
    · rw [Option.elim_none, List.nil_append, List.append_nil]
      exact hbody
    · rw [Option.elim_none, List.nil_append, placeOf_append_right (by decide) (by decide) hbody,
        hbehind hprotocol]
      rfl

/-- The path is looked for behind the protocol. -/
theorem pathOf_eq {text protocol rest : List UInt8} (htext : text = protocol ++ rest)
    (hlead : prefixLen text = protocol.length) :
    pathOf text = (rest.findIdx? (· == PATH)).map fun k => rest.drop (k + 1) := by
  rw [pathOf, hlead, htext, List.drop_left]

theorem findIdx?_path {a : List UInt8} (ha : PATH ∉ a) (rest : List UInt8) :
    (a ++ PATH :: rest).findIdx? (· == PATH) = some a.length := by
  have hnone : a.findIdx? (· == PATH) = none := by
    rw [List.findIdx?_eq_none_iff]
    exact fun b hb => beq_eq_false_iff_ne.mpr fun h => ha (h ▸ hb)
  rw [List.findIdx?_append, hnone]
  simp [List.findIdx?_cons]

theorem findIdx?_path_eq_none {a : List UInt8} :
    a.findIdx? (· == PATH) = none ↔ PATH ∉ a := by
  rw [List.findIdx?_eq_none_iff]
  constructor
  · exact fun h hb => absurd (h PATH hb) (by simp)
  · exact fun h b hb => beq_eq_false_iff_ne.mpr fun hp => h (hp ▸ hb)

/-- A path goes on to the end of the text. -/
theorem Parts.IsItem.pathOf_some (h : x.IsItem dotted) {rest p : List UInt8}
    (hlead : prefixLen (x.protocolText ++ x.body ++ rest) = x.protocolText.length)
    (hpath : x.path = some p) :
    pathOf (x.protocolText ++ x.body ++ rest) = some (p ++ rest) := by
  have hbody : x.body ++ rest = x.address ++ x.portText ++ PATH :: (p ++ rest) := by
    simp [body, pathText, hpath]
  rw [pathOf_eq (List.append_assoc _ _ _) hlead, hbody, findIdx?_path h.path_notMem,
    Option.map_some, ← List.drop_drop, List.drop_left]
  rfl

/-- Without a path one of the text behind is found. -/
theorem Parts.IsItem.pathOf_none (h : x.IsItem dotted) {rest : List UInt8}
    (hlead : prefixLen (x.protocolText ++ x.body ++ rest) = x.protocolText.length)
    (hpath : x.path = none) :
    pathOf (x.protocolText ++ x.body ++ rest) = none ↔ PATH ∉ rest := by
  have hbody : x.body = x.address ++ x.portText := by
    simp [body, pathText, hpath]
  rw [pathOf_eq (List.append_assoc _ _ _) hlead, Option.map_eq_none_iff, findIdx?_path_eq_none,
    hbody, List.mem_append, not_or, and_iff_right h.path_notMem]

/-- The path of an item alone. -/
theorem Parts.IsItem.pathOf_text (h : x.IsItem dotted) : pathOf x.text = x.path := by
  have hlead := @prefixLen_append _ _ h [] (.inl rfl)
  have htext : x.text = x.protocolText ++ x.body ++ [] := by simp [text]
  rw [htext]
  cases hpath : x.path with
  | some p => rw [h.pathOf_some hlead hpath, List.append_nil]
  | none => exact (h.pathOf_none hlead hpath).mpr List.not_mem_nil

/-- An item without protocol and path has no slash. -/
theorem Parts.IsItem.slash_iff (h : x.IsItem dotted) :
    PATH ∉ x.text ↔ x.protocol = none ∧ x.path = none := by
  have hfront := h.path_notMem
  constructor
  · intro hslash
    constructor
    · cases hprotocol : x.protocol with
      | none => rfl
      | some p =>
        refine absurd (List.mem_append_left _ ?_) hslash
        rw [protocolText, hprotocol, Option.elim_some]
        exact List.mem_append_right _ (by decide)
    · cases hpath : x.path with
      | none => rfl
      | some p =>
        refine absurd (List.mem_append_right _ (List.mem_append_right _ ?_)) hslash
        rw [pathText, hpath]
        exact List.mem_cons_self
  · rintro ⟨hprotocol, hpath⟩
    simpa [text, protocolText, hprotocol, body, pathText, hpath] using hfront

theorem slash_listText (items : List (Item dotted)) :
    PATH ∉ (listText items).val ↔
      ∀ x ∈ items, x.val.protocol = none ∧ x.val.path = none := by
  induction items with
  | nil => simp [listText, CStr.join, CStr.empty]
  | cons x items ih =>
    rw [List.forall_mem_cons]
    by_cases hnil : items = []
    · rw [hnil, listText_single, x.property.slash_iff]
      simp
    · rw [listText_cons x hnil, List.mem_append, List.mem_cons, not_or, not_or, ih,
        x.property.slash_iff]
      simp [show PATH ≠ COMMA by decide]

/-! ## What a round takes -/

/-- What is behind the first item of a list. -/
def behindFirst (items : List (Item dotted)) : List UInt8 :=
  if items = [] then [] else COMMA :: (listText items).val

theorem listText_eq (x : Item dotted) (items : List (Item dotted)) :
    (listText (x :: items)).val = x.val.protocolText ++ x.val.body ++ behindFirst items := by
  by_cases hnil : items = []
  · rw [hnil, listText_single, behindFirst, if_pos rfl, List.append_nil]
    rfl
  · rw [listText_cons x hnil, behindFirst, if_neg hnil]
    rfl

theorem behindFirst_shape (items : List (Item dotted)) :
    behindFirst items = [] ∨ ∃ behind, behindFirst items = COMMA :: behind := by
  by_cases hnil : items = []
  · exact .inl (if_pos hnil)
  · exact .inr ⟨_, if_neg hnil⟩

/-- The protocol of the first item, if it has one or no other item has one. -/
theorem prefixLen_own (x : Item dotted) {items : List (Item dotted)}
    (h : x.val.protocol = none → placeOf (listText items).val PREFIX = none) :
    prefixLen (listText (x :: items)).val = x.val.protocolText.length := by
  rw [listText_eq]
  apply x.property.prefixLen_append
  by_cases hnil : items = []
  · exact .inl (if_pos hnil)
  · exact .inr ⟨_, if_neg hnil, h⟩

/-- A text without slashes has no protocol. -/
theorem placeOf_of_noSlash {text : List UInt8} (h : PATH ∉ text) : placeOf text PREFIX = none :=
  placeOf_eq_none.mpr fun hin => h (hin.mem (by decide))

/-- A round takes the first item, or something with a comma for the protocol of another one. -/
theorem exists_round (items : List (Item dotted)) (hne : items ≠ []) :
    ∃ (protocol : List UInt8) (y : Item dotted) (rest : List UInt8),
      (listText items).val = protocol ++ y.val.body ++ rest ∧
      (rest = [] ∨ ∃ behind, rest = COMMA :: behind) ∧
      prefixLen (listText items).val = protocol.length ∧
      (COMMA ∈ protocol ∨ items.head? = some y ∧ protocol = y.val.protocolText) := by
  induction items with
  | nil => exact absurd rfl hne
  | cons x items ih =>
    by_cases hown : x.val.protocol = none → placeOf (listText items).val PREFIX = none
    · exact ⟨x.val.protocolText, x, behindFirst items, listText_eq x items,
        behindFirst_shape items, prefixLen_own x hown, .inr ⟨rfl, rfl⟩⟩
    · rw [Classical.not_imp] at hown
      obtain ⟨hprotocol, hfound⟩ := hown
      have hnil : items ≠ [] := by
        rintro rfl
        exact hfound (placeOf_of_noSlash List.not_mem_nil)
      obtain ⟨protocol, y, rest, htext, hrest, hlead, -⟩ := ih hnil
      have hx : placeOf x.val.text PREFIX = none := by
        have hbody : x.val.text = x.val.body := by
          simp [Parts.text, Parts.protocolText, hprotocol]
        rw [hbody]
        exact placeOf_eq_none.mpr (x.property.noProtocol hprotocol)
      obtain ⟨k, hk⟩ := Option.ne_none_iff_exists'.mp hfound
      rw [prefixLen, hk, Option.elim_some] at hlead
      refine ⟨x.val.text ++ COMMA :: protocol, y, rest, ?_, hrest, ?_, .inl (by simp)⟩
      · rw [listText_cons x hnil, htext]
        simp
      · rw [listText_cons x hnil, prefixLen, placeOf_append_right (by decide) (by decide) hx, hk,
          Option.map_some, Option.elim_some, List.length_append, List.length_cons, ← hlead]
        omega

/-! ## The loop -/

variable {text front junk : List UInt8} {ipAddr : UInt32}

theorem listText_free (items : List (Item dotted)) : (0 : UInt8) ∉ (listText items).val :=
  (listText items).property

/-- The first round of a loop that has a round to do. -/
theorem itemLoop_first {items : List (Item dotted)} {protocol rest : List UInt8} {y : Item dotted}
    (htext : (listText items).val = protocol ++ y.val.body ++ rest)
    (hrest : rest = [] ∨ ∃ behind, rest = COMMA :: behind)
    (hlead : prefixLen (listText items).val = protocol.length) (n : ℕ) :
    itemLoop text defPort dotted (front.length + (listText items).len) (n + 1)
        (front ++ (listText items).val ++ 0 :: junk) front.length ipAddr =
      if dwordAlign (URL_STR_LEN + 1) ≤ (protocol ++ y.val.body).length then .overflow
      else
        (itemLoop text defPort dotted (front.length + (listText items).len) n
          (front ++ (listText items).val ++ 0 :: junk)
          (if rest = [] then front.length + (listText items).len
            else (front ++ protocol ++ y.val.body).length + 1)
          (y.val.nextAddr ipAddr)).cons
          (y.val.entry (protocol ++ y.val.body) defPort (pathOf text) ipAddr) := by
  have hpos : front.length < front.length + (listText items).len := by
    have hbody : 0 < y.val.body.length := List.length_pos_of_ne_nil
      (List.append_ne_nil_of_left_ne_nil
        (List.append_ne_nil_of_left_ne_nil y.property.address.1 _) _)
    rw [CStr.len, htext, List.length_append, List.length_append]
    omega
  have hfree := listText_free items
  have hround := @itemRound_item _ _ defPort text front junk _
    (front.length + (listText items).len) ipAddr y.property _ hrest (htext ▸ hfree) (htext ▸ hlead)
  rw [← htext] at hround
  rw [itemLoop, if_pos hpos]
  by_cases hlong : dwordAlign (URL_STR_LEN + 1) ≤ (protocol ++ y.val.body).length
  · rw [if_pos hlong] at hround ⊢
    rw [hround]
  · rw [if_neg hlong] at hround ⊢
    rw [hround]

/-- No round is left at the end of the text. -/
theorem itemLoop_end (n stop : ℕ) (mem : List UInt8) :
    itemLoop text defPort dotted stop n mem stop ipAddr = .entries [] := by
  cases n with
  | zero => rfl
  | succ n => rw [itemLoop, if_neg (lt_irrefl stop)]

/-- The entry of an item with an address does not depend on the stack. -/
theorem Parts.IsTaken.entry_eq (h : x.IsTaken) (addrStr : List UInt8) (path : Option (List UInt8))
    (ipAddr ipAddr' : UInt32) :
    x.entry addrStr defPort path ipAddr = x.entry addrStr defPort path ipAddr' := by
  rw [entry, entry]
  by_cases hfour : scansFour x.address = true
  · obtain ⟨addr, haddr⟩ := Option.isSome_iff_exists.mp (h hfour)
    simp [nextAddr, hfour, haddr]
  · simp [hfour]

/-- The loop over items that are apart from each other. -/
theorem itemLoop_run (n : ℕ) {items : List (Item dotted)}
    (hfits : ∀ x ∈ items.take n, x.val.text.length < dwordAlign (URL_STR_LEN + 1))
    (htaken : ∀ x ∈ items.take n, x.val.IsTaken)
    (hapart : ∀ x ∈ items.tail, x.val.protocol = none ∧ x.val.path = none) :
    itemLoop text defPort dotted (front.length + (listText items).len) n
        (front ++ (listText items).val ++ 0 :: junk) front.length ipAddr =
      .entries ((items.take n).map fun x => x.val.entry x.val.text defPort (pathOf text) 0) := by
  induction n generalizing items front ipAddr with
  | zero => rfl
  | succ n ih =>
    cases items with
    | nil => simp [itemLoop, listText, CStr.join]
    | cons x items =>
      rw [List.take_succ_cons, List.forall_mem_cons] at hfits htaken
      have hslash : PATH ∉ (listText items).val := (slash_listText items).mpr hapart
      have hentry : x.val.entry (x.val.protocolText ++ x.val.body) defPort (pathOf text) ipAddr =
          x.val.entry x.val.text defPort (pathOf text) 0 := htaken.1.entry_eq _ _ _ _
      have hshort : ¬dwordAlign (URL_STR_LEN + 1) ≤ (x.val.protocolText ++ x.val.body).length :=
        not_le.mpr hfits.1
      rw [itemLoop_first (listText_eq x items) (behindFirst_shape items)
        (prefixLen_own x fun _ => placeOf_of_noSlash hslash), if_neg hshort, hentry,
        List.take_succ_cons, List.map_cons]
      by_cases hnil : items = []
      · have hbehind : behindFirst items = [] := if_pos hnil
        rw [if_pos hbehind, itemLoop_end, hnil]
        simp [ListRead.cons]
      · have hbehind : behindFirst items ≠ [] := by
          rw [behindFirst, if_neg hnil]
          exact List.cons_ne_nil _ _
        -- the next round starts behind the comma
        have hmem : front ++ (listText (x :: items)).val ++ 0 :: junk =
            (front ++ x.val.text ++ [COMMA]) ++ (listText items).val ++ 0 :: junk := by
          rw [listText_cons x hnil]
          simp
        have hstart : (front ++ x.val.protocolText ++ x.val.body).length + 1 =
            (front ++ x.val.text ++ [COMMA]).length := by
          simp [Parts.text, Nat.add_assoc]
        have hstop : front.length + (listText (x :: items)).len =
            (front ++ x.val.text ++ [COMMA]).length + (listText items).len := by
          rw [CStr.len, listText_cons x hnil, CStr.len]
          simp only [List.length_append, List.length_cons, List.length_nil]
          omega
        rw [if_neg hbehind, hmem, hstart, hstop, ih hfits.2 htaken.2
          fun y hy => hapart y (List.mem_of_mem_tail hy)]
        rfl

end EzpFirmware.Qcloud
