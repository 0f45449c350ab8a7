import EzpFirmware.Qcloud.MacStrings

/-! # Which texts are read as MAC addresses

What the two passes accept is described without them, and every text of an
address is among it. The rest is accepted too: the reader is right about the
texts that are neither.
-/
namespace EzpFirmware.Qcloud
open Lib UserNvram

/-! ## Stripping -/

/-- The characters that are left. -/
def stripped (core : List UInt8) : List UInt8 := core.filter (· ≠ COLON)

theorem stripped_colon (rest : List UInt8) : stripped (COLON :: rest) = stripped rest := by
  simp [stripped]

theorem stripped_other {c : UInt8} (hc : c ≠ COLON) (rest : List UInt8) :
    stripped (c :: rest) = c :: stripped rest := by
  simp [stripped, hc]

theorem getLast_stripped {core : List UInt8} (h : core.getLast? ≠ some COLON) :
    (stripped core).getLast? = core.getLast? := by
  rcases List.eq_nil_or_concat core with rfl | ⟨front, b, rfl⟩
  · rfl
  · rw [List.concat_eq_append] at h ⊢
    have hb : b ≠ COLON := by simpa using h
    rw [stripped, List.filter_append]
    simp [hb]

/-- The loop ends with twelve characters and a good number of colons exactly if the text has them
and no colon at its end. -/
theorem stripMacLoop_iff {src dst dst' : List UInt8} {colon k : ℕ} (hdst : dst.length < MAC_STR_LEN) :
    (stripMacLoop src dst colon = (dst', k) ∧ dst'.length = MAC_STR_LEN ∧ (k = 0 ∨ k = 5)) ↔
      dst' = dst ++ stripped src ∧ dst'.length = MAC_STR_LEN ∧ src.getLast? ≠ some COLON ∧
        k = colon + src.count COLON ∧ (k = 0 ∨ k = 5) := by
  induction src generalizing dst colon with
  | nil =>
    simp only [stripMacLoop, stripped]
    grind
  | cons c rest ih =>
    by_cases hc : c = COLON
    · subst hc
      rw [stripMacLoop, if_pos rfl, ih hdst, stripped_colon, List.count_cons_self]
      cases rest with
      | nil =>
        simp only [stripped]
        grind
      | cons b rest =>
        rw [List.getLast?_cons_cons]
        grind
    · have hlast : rest ≠ [] → (c :: rest).getLast? = rest.getLast? := by
        cases rest with
        | nil => exact fun h => absurd rfl h
        | cons b rest => exact fun _ => List.getLast?_cons_cons
      rw [stripMacLoop, if_neg hc, stripped_other hc, List.count_cons_of_ne hc]
      by_cases hfull : dst.length + 1 = MAC_STR_LEN
      · rw [if_pos hfull]
        by_cases hrest : rest = []
        · subst hrest
          simp [stripped, hc]
          grind
        · rw [if_pos hrest, hlast hrest]
          apply iff_of_false
          · rintro ⟨heq, -, hk⟩
            obtain ⟨-, rfl⟩ := Prod.mk.inj heq
            omega
          · rintro ⟨rfl, hlen, hend, -⟩
            have hnil : stripped rest = [] := by
              rw [List.length_append, List.length_cons] at hlen
              exact List.eq_nil_of_length_eq_zero (by omega)
            have hnone := getLast_stripped hend
            rw [hnil] at hnone
            exact hrest (List.getLast?_eq_none_iff.mp hnone.symm)
      · have happ : dst ++ [c] ++ stripped rest = dst ++ c :: stripped rest := by simp
        rw [if_neg hfull, ih (by simp; omega), happ]
        by_cases hrest : rest = []
        · subst hrest
          simp [stripped, hc]
        · rw [hlast hrest]

/-- A text of one character and blanks behind it keeps them. -/
theorem utilTrim_some {text core : List UInt8} (h : utilTrim text false = some core) :
    Inner text core ∧ ∀ b ∈ core.head?, ¬ isSpace b := by
  have hsplit := List.takeWhile_append_dropWhile (p := isSpace) (l := text)
  have hfront : ∀ x ∈ text.takeWhile isSpace, isSpace x :=
    fun x hx => List.mem_takeWhile_imp hx
  have hhead := List.head?_dropWhile_not isSpace text
  unfold utilTrim at h
  split at h
  case h_1 => cases h
  case h_2 b rest hdrop =>
    rw [hdrop] at hhead hsplit
    have hb : ¬ isSpace b := by simpa using hhead
    rw [if_neg (by decide)] at h
    obtain rfl := Option.some.inj h
    split_ifs
    case pos hlen =>
      have hback : (b :: rest).rdropWhile isSpace ++ (b :: rest).rtakeWhile isSpace =
          b :: rest := List.rdropWhile_append_rtakeWhile
      refine ⟨⟨_, (b :: rest).rtakeWhile isSpace, ?_, hfront, ?_⟩, ?_⟩
      · rw [List.append_assoc, hback, hsplit]
      · exact fun x hx => List.mem_rtakeWhile_imp hx
      · obtain ⟨back, happ⟩ := List.rdropWhile_prefix isSpace (b :: rest)
        cases hstop : (b :: rest).rdropWhile isSpace with
        | nil => simp
        | cons c stop =>
          rw [hstop] at happ
          obtain rfl : c = b := (List.cons.inj happ).1
          simpa using hb
    case neg =>
      refine ⟨⟨_, [], ?_, hfront, by simp⟩, ?_⟩
      · rw [List.append_nil, hsplit]
      · simpa using hb

theorem utilTrim_eq {front core back : List UInt8} (hfront : ∀ b ∈ front, isSpace b)
    (hback : ∀ b ∈ back, isSpace b) (hhead : ∀ b ∈ core.head?, ¬ isSpace b)
    (hlast : ∀ b ∈ core.getLast?, ¬ isSpace b) (hlen : 1 < core.length) :
    utilTrim (front ++ core ++ back) false = some core := by
  have hdrop : (front ++ core ++ back).dropWhile isSpace = core ++ back := by
    rw [List.append_assoc, List.dropWhile_append_of_pos hfront]
    cases core with
    | nil => simp at hlen
    | cons b core => rw [List.cons_append, List.dropWhile_cons_of_neg (hhead b rfl)]
  have hstop : (core ++ back).rdropWhile isSpace = core := by
    induction back using List.reverseRecOn with
    | nil =>
      rw [List.append_nil]
      apply List.rdropWhile_eq_self_iff.mpr
      exact fun hne => hlast _ (List.getLast?_eq_some_getLast hne)
    | append_singleton back b ih =>
      have hb : isSpace b := hback b (by simp)
      rw [← List.append_assoc, List.rdropWhile_concat_pos _ _ _ hb]
      apply ih fun x hx => hback x (List.mem_append_left _ hx)
      rw [List.append_assoc, List.dropWhile_append_of_pos hfront]
      cases core with
      | nil => simp at hlen
      | cons b core => rw [List.cons_append, List.dropWhile_cons_of_neg (hhead b rfl)]
  unfold utilTrim
  rw [hdrop]
  cases core with
  | nil => simp at hlen
  | cons b core =>
    rw [List.cons_append] at hstop ⊢
    dsimp only
    rw [if_neg (by decide), hstop, if_pos hlen]

/-- Twelve characters are left exactly of these texts. -/
theorem utilStripMac_iff {text digits : List UInt8} :
    (utilStripMac text = digits ∧ digits.length = MAC_STR_LEN) ↔
      ∃ core, utilTrim text false = some core ∧ core.getLast? ≠ some COLON ∧
        (core.count COLON = 0 ∨ core.count COLON = 5) ∧ digits = stripped core ∧
          digits.length = MAC_STR_LEN := by
  have hpos : ([] : List UInt8).length ≠ MAC_STR_LEN := by decide
  unfold utilStripMac
  cases htrim : utilTrim text false with
  | none =>
    simp only [reduceCtorEq, false_and, exists_false, iff_false]
    rintro ⟨rfl, hlen⟩
    exact hpos hlen
  | some core =>
    have hloop := fun k => @stripMacLoop_iff core [] digits 0 k
      (by decide)
    simp only [List.nil_append, Nat.zero_add] at hloop
    dsimp only
    generalize stripMacLoop core [] 0 = r at hloop
    obtain ⟨dst, colon⟩ := r
    dsimp only
    constructor
    · rintro ⟨heq, hlen⟩
      split_ifs at heq with hbad
      · exact absurd (heq ▸ hlen) hpos
      · obtain ⟨hcolon, -⟩ := not_or.mp hbad
        obtain ⟨heq, -, hlast, hcount, hk⟩ := (hloop colon).mp
          ⟨Prod.ext heq rfl, hlen, by omega⟩
        exact ⟨core, rfl, hlast, hcount ▸ hk, heq, hlen⟩
    · rintro ⟨core', hcore, hlast, hcount, heq, hlen⟩
      obtain rfl : core = core' := Option.some.inj hcore
      obtain ⟨hr, -, -⟩ := (hloop (core.count COLON)).mpr ⟨heq, hlen, hlast, rfl, hcount⟩
      obtain ⟨rfl, rfl⟩ := Prod.mk.inj hr
      rw [if_neg (by omega)]
      exact ⟨rfl, hlen⟩

theorem utilStripMac_length (text : List UInt8) :
    utilStripMac text = [] ∨ (utilStripMac text).length = MAC_STR_LEN := by
  unfold utilStripMac
  split
  · exact .inl rfl
  · dsimp only
    split_ifs with hbad
    · exact .inl rfl
    · exact .inr (not_not.mp (not_or.mp hbad).2)

/-! ## Reading -/

/-- The text is accepted exactly if its numbers are read to the end. -/
theorem sscanfMac_iff {s : List UInt8} :
    (sscanfMac s).1 = ETHER_ADDR_LEN ↔
      (scanHexes ETHER_ADDR_LEN s).1.length = ETHER_ADDR_LEN ∧
        (scanHexes ETHER_ADDR_LEN s).2 = [] := by
  unfold sscanfMac
  dsimp only
  split_ifs with h
  · have hne := h.1
    apply iff_of_false
    · omega
    · exact fun hr => h.2 hr.2
  · rw [not_and_not_right] at h
    exact ⟨fun hlen => ⟨hlen, h hlen⟩, fun hr => hr.1⟩

theorem accepts_iff {text : CStr} :
    (sscanfMac ((utilStripMac text.val).map toupper)).1 = ETHER_ADDR_LEN ↔ Scannable text := by
  have hscan : (sscanfMac ((utilStripMac text.val).map toupper)).1 = ETHER_ADDR_LEN ↔
      HexFields ETHER_ADDR_LEN (utilStripMac text.val) := by
    rw [sscanfMac_iff, scanHexes_toupper]
    dsimp only
    rw [List.map_eq_nil_iff]
    constructor
    · rintro ⟨hlen, hnil⟩
      exact .of_scanned (Prod.ext rfl hnil) hlen
    · intro h
      obtain ⟨vals, heq, hlen⟩ := h.scanned
      rw [heq]
      exact ⟨hlen, rfl⟩
  rw [hscan]
  constructor
  · intro h
    rcases utilStripMac_length text.val with hnil | hlen
    · rw [hnil] at h
      obtain ⟨vals, heq, hvals⟩ := h.scanned
      have hnone : scanHexes ETHER_ADDR_LEN [] = ([], []) := rfl
      rw [hnone] at heq
      rw [← (Prod.mk.inj heq).1] at hvals
      cases hvals
    · obtain ⟨core, htrim, hlast, hcount, heq, -⟩ := utilStripMac_iff.mp ⟨rfl, hlen⟩
      obtain ⟨hinner, hhead⟩ := utilTrim_some htrim
      rw [heq] at h hlen
      exact ⟨core, hinner, hhead, hlast, hcount, hlen, h⟩
  · rintro ⟨core, ⟨front, back, htext, hfront, hback⟩, hhead, hlast, hcount, hlen, hfields⟩
    have hend : ∀ b ∈ core.getLast?, ¬ isSpace b := by
      rw [← getLast_stripped hlast]
      exact fun b hb => (isxdigit_ne b (hfields.getLast b hb)).1
    have hlong : 1 < core.length := by
      have hle := List.length_filter_le (fun b => decide (b ≠ COLON)) core
      rw [MAC_STR_LEN] at hlen
      omega
    have htrim := utilTrim_eq hfront hback hhead hend hlong
    rw [← htext] at htrim
    rw [(utilStripMac_iff.mpr ⟨core, htrim, hlast, hcount, rfl, hlen⟩).1]
    exact hfields

/-! ## The texts of an address -/

section
variable {groups : List (UInt8 × UInt8)}

theorem digit_of_mem (h : ∀ g ∈ groups, isxdigit g.1 ∧ isxdigit g.2) :
    ∀ b ∈ groups.flatMap groupText, isxdigit b := by
  intro b hb
  obtain ⟨g, hg, hb⟩ := List.mem_flatMap.mp hb
  obtain ⟨hfst, hsnd⟩ := h g hg
  rcases List.mem_pair.mp hb with rfl | rfl
  · exact hfst
  · exact hsnd

theorem stripped_digits {s : List UInt8} (h : ∀ b ∈ s, isxdigit b) :
    stripped s = s ∧ s.count COLON = 0 := by
  have hne : ∀ b ∈ s, b ≠ COLON := fun b hb => (isxdigit_ne b (h b hb)).2.2
  exact ⟨List.filter_eq_self.mpr fun b hb => by simpa using hne b hb,
    List.count_eq_zero.mpr fun hm => hne COLON hm rfl⟩

/-- The groups with a colon between each two. -/
def colonText (groups : List (UInt8 × UInt8)) : List UInt8 :=
  [COLON].intercalate (groups.map groupText)

theorem colonText_cons (g g' : UInt8 × UInt8) (groups : List (UInt8 × UInt8)) :
    colonText (g :: g' :: groups) = g.1 :: g.2 :: COLON :: colonText (g' :: groups) :=
  List.intercalate_cons_cons

/-- The colons between groups are stripped, and no end of the text is one. -/
theorem stripped_colonText (h : ∀ g ∈ groups, isxdigit g.1 ∧ isxdigit g.2) :
    stripped (colonText groups) = groups.flatMap groupText ∧
      (colonText groups).count COLON = groups.length - 1 ∧
      (colonText groups).head? = (groups.flatMap groupText).head? ∧
      (colonText groups).getLast? = (groups.flatMap groupText).getLast? := by
  induction groups with
  | nil => exact ⟨rfl, rfl, rfl, rfl⟩
  | cons g groups ih =>
    have hg := h g List.mem_cons_self
    obtain ⟨hstripped, hcount, -, hlast⟩ := ih fun g hg => h g (List.mem_cons_of_mem _ hg)
    cases groups with
    | nil =>
      have hone : colonText [g] = [g].flatMap groupText := by simp [colonText]
      obtain ⟨hself, hzero⟩ := stripped_digits (digit_of_mem h)
      rw [hone]
      exact ⟨hself, hzero, rfl, rfl⟩
    | cons g' groups =>
      have hfst := (isxdigit_ne _ hg.1).2.2
      have hsnd := (isxdigit_ne _ hg.2).2.2
      rw [colonText_cons, stripped_other hfst, stripped_other hsnd, stripped_colon, hstripped,
        List.count_cons_of_ne hfst, List.count_cons_of_ne hsnd, List.count_cons_self, hcount]
      refine ⟨rfl, rfl, rfl, ?_⟩
      rw [List.getLast?_cons, List.getLast?_cons, List.getLast?_cons, hlast]
      simp [groupText, List.getLast?_cons]

/-- The number of a group. -/
def groupNumber (g : UInt8 × UInt8) : UInt32 := (fromHex g.1).toUInt32 * 16 + (fromHex g.2).toUInt32

theorem groupNumber_toUInt8 (g : UInt8 × UInt8) : (groupNumber g).toUInt8 = groupByte g := by
  simp [groupNumber, groupByte]

theorem scanHexes_groups (h : ∀ g ∈ groups, isxdigit g.1 ∧ isxdigit g.2) :
    scanHexes groups.length (groups.flatMap groupText) = (groups.map groupNumber, []) := by
  induction groups with
  | nil => rfl
  | cons g groups ih =>
    obtain ⟨hfst, hsnd⟩ := h g List.mem_cons_self
    have hscan : scanHex2 ((g :: groups).flatMap groupText) =
        some (groupNumber g, groups.flatMap groupText) := scanHex2_pair hfst hsnd _
    rw [List.length_cons, scanHexes_some hscan, ih fun g hg => h g (List.mem_cons_of_mem _ hg)]
    rfl

/-- The digits of an address are what is left of its text. -/
theorem Groups.stripMac (h : Groups groups) {text core : List UInt8} (hinner : Inner text core)
    (hcore : core = groups.flatMap groupText ∨ core = colonText groups) :
    utilStripMac text = groups.flatMap groupText := by
  have hdigits := digit_of_mem h.digits
  have hlen : (groups.flatMap groupText).length = MAC_STR_LEN := by
    have hsum : (groups.flatMap groupText).length = groups.length * 2 := by
      simp [List.length_flatMap, groupText]
    rw [hsum, h.length]
    rfl
  obtain ⟨hstripped, hcount, hhead, hlast⟩ : stripped core = groups.flatMap groupText ∧
      (core.count COLON = 0 ∨ core.count COLON = 5) ∧
      core.head? = (groups.flatMap groupText).head? ∧
      core.getLast? = (groups.flatMap groupText).getLast? := by
    rcases hcore with rfl | rfl
    · obtain ⟨hself, hzero⟩ := stripped_digits hdigits
      exact ⟨hself, .inl hzero, rfl, rfl⟩
    · obtain ⟨hstripped, hcount, hhead, hlast⟩ := stripped_colonText h.digits
      rw [h.length] at hcount
      exact ⟨hstripped, .inr hcount, hhead, hlast⟩
  obtain ⟨front, back, rfl, hfront, hback⟩ := hinner
  have hlong : 1 < core.length := by
    have hle := List.length_filter_le (fun b => decide (b ≠ COLON)) core
    change (stripped core).length ≤ core.length at hle
    rw [hstripped, hlen, MAC_STR_LEN] at hle
    omega
  have hends : ∀ b, b ∈ core.head? ∨ b ∈ core.getLast? → isxdigit b := by
    rw [hhead, hlast]
    rintro b (hb | hb)
    · exact hdigits b (List.mem_of_mem_head? hb)
    · exact hdigits b (List.mem_of_mem_getLast? hb)
  have htrim := utilTrim_eq hfront hback (fun b hb => (isxdigit_ne b (hends b (.inl hb))).1)
    (fun b hb => (isxdigit_ne b (hends b (.inr hb))).1) hlong
  have hcolon : core.getLast? ≠ some COLON := fun hm => (isxdigit_ne _ (hends _ (.inr hm))).2.2 rfl
  exact (utilStripMac_iff.mpr ⟨core, htrim, hcolon, hcount, hstripped.symm, hlen⟩).1

/-- A text of an address is read. -/
theorem utilReadMacStr_writes {text : CStr} {addr : List UInt8} (h : WritesMac text addr)
    (macAddr : List UInt8) :
    ∃ save, utilReadMacStr text macAddr = (NO_ERROR, some save, poke macAddr 0 addr) := by
  obtain ⟨groups, hgroups, rfl, hinner⟩ := h
  have hstrip : utilStripMac text.val = groups.flatMap groupText := by
    rcases hinner with hinner | hinner
    · exact hgroups.stripMac hinner (.inl rfl)
    · exact hgroups.stripMac hinner (.inr rfl)
  have hscan := scanHexes_groups hgroups.digits
  rw [hgroups.length] at hscan
  have hsscanf : sscanfMac ((groups.flatMap groupText).map toupper) =
      (ETHER_ADDR_LEN, groups.map groupNumber) := by
    rw [sscanfMac, scanHexes_toupper, hscan]
    simp [hgroups.length]
  refine ⟨(groups.flatMap groupText).map toupper, ?_⟩
  rw [utilReadMacStr, hstrip, hsscanf]
  dsimp only
  rw [if_pos rfl, List.map_map]
  congr 4
  funext g
  exact groupNumber_toUInt8 g

end

/-- A text is rejected exactly if it cannot be scanned. -/
theorem utilReadMacStr_cases (text : CStr) (macAddr : List UInt8) :
    Scannable text ∧ (utilReadMacStr text macAddr).1 = NO_ERROR ∨
      ¬ Scannable text ∧ utilReadMacStr text macAddr = (ERR_INVALID_VALUE, none, macAddr) := by
  unfold utilReadMacStr
  dsimp only
  split_ifs with h
  · exact .inl ⟨accepts_iff.mp h, rfl⟩
  · exact .inr ⟨fun hs => h (accepts_iff.mpr hs), rfl⟩

/-- The reader is right about a text exactly if it is one of an address or cannot be scanned. -/
theorem readsMac_iff (text : CStr) :
    ReadsMac text ↔ (∃ addr, WritesMac text addr) ∨ ¬ Scannable text := by
  have hne : ERR_INVALID_VALUE ≠ NO_ERROR := by decide
  constructor
  · intro h
    by_contra hno
    obtain ⟨hwrites, hscan⟩ := not_or.mp hno
    obtain ⟨ret, hret, heq⟩ := (h []).2 (not_exists.mp hwrites)
    rcases utilReadMacStr_cases text [] with ⟨-, hok⟩ | ⟨hscan', -⟩
    · rw [heq] at hok
      exact hret hok
    · exact hscan hscan'
  · intro h macAddr
    refine ⟨fun addr hw => utilReadMacStr_writes hw macAddr, fun hw => ?_⟩
    have hscan := h.resolve_left fun ⟨addr, hw'⟩ => hw addr hw'
    rcases utilReadMacStr_cases text macAddr with ⟨hscan', -⟩ | ⟨-, heq⟩
    · exact absurd hscan' hscan
    · exact ⟨_, hne, heq⟩

/-- A text without spaces has no outer ones. -/
theorem Inner.eq_self {text core : List UInt8} (h : Inner text core)
    (hfree : ∀ b ∈ text, ¬ isSpace b) : text = core := by
  obtain ⟨front, back, rfl, hfront, hback⟩ := h
  have hnil : front = [] := List.eq_nil_iff_forall_not_mem.mpr
    fun b hb => hfree b (by simp [hb]) (hfront b hb)
  have hnil' : back = [] := List.eq_nil_iff_forall_not_mem.mpr
    fun b hb => hfree b (by simp [hb]) (hback b hb)
  rw [hnil, hnil', List.nil_append, List.append_nil]

/-- Five colons at the wrong places. -/
def misplacedMac : CStr := .ofString "0:0:0:8:9:b010203"

theorem not_writesMac_misplaced (addr : List UInt8) : ¬ WritesMac misplacedMac addr := by
  have hfree : ∀ b ∈ misplacedMac.val, ¬ isSpace b := by decide +kernel
  have hlist : misplacedMac.val = 0x30 :: COLON :: misplacedMac.val.drop 2 := by decide
  rintro ⟨groups, hgroups, -, hinner⟩
  have hlen := hgroups.length
  match groups with
  | [] | [_] => cases hlen
  | g :: g' :: groups =>
    -- the second character is the second digit of the first group
    have hsecond : g.2 = COLON := by
      rcases hinner with hinner | hinner
      · have htext := (hlist.symm.trans (hinner.eq_self hfree))
        exact (List.cons.inj (List.cons.inj htext).2).1.symm
      · have htext := (hlist.symm.trans (hinner.eq_self hfree)).trans (colonText_cons g g' groups)
        exact (List.cons.inj (List.cons.inj htext).2).1.symm
    exact (isxdigit_ne g.2 (hgroups.digits g List.mem_cons_self).2).2.2 hsecond

/-- Colons at the wrong places are not noticed. -/
theorem misplaced_accepted : ¬ ReadsMac misplacedMac := by
  intro h
  obtain ⟨ret, hret, heq⟩ := (h []).2 not_writesMac_misplaced
  have hok : (utilReadMacStr misplacedMac []).1 = NO_ERROR := by decide
  rw [heq] at hok
  exact hret hok

end EzpFirmware.Qcloud
