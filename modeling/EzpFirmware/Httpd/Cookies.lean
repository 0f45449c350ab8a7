import EzpFirmware.Httpd.Auth
import EzpFirmware.Httpd.Escapes

/-! # Which cookie is taken

The cookie of the session is looked for by its name and `=` in the whole header,
after the header has been unescaped. What is found is its value if no other
cookie has that text in it, if no escape of its own stands for a separator, if it
fits the buffer, and if it is not the last one: behind the last one there is the
end of the line, of which only one byte is left out.
-/
namespace EzpFirmware.Httpd
open Lib

/-! ## Searching a text piece by piece -/

section
variable {a s r tar found : List UInt8} {x : UInt8}

theorem strstr_cons (b : UInt8) (s tar : List UInt8) :
    strstr (b :: s) tar = if tar.isPrefixOf (b :: s) then some (b :: s) else strstr s tar := by
  rw [strstr, List.tails_cons, List.find?_cons]
  split <;> rename_i h <;> simp [h, strstr]

theorem strstr_leading (h : strstr s tar = some found) : tar <+: found := by
  simpa using List.find?_some h

theorem strstr_suffix (h : strstr s tar = some found) : found <:+ s :=
  (List.mem_tails _ _).mp (List.mem_of_find?_eq_some h)

theorem strstr_append_of_some (h : strstr a tar = some found) (r : List UInt8) :
    strstr (a ++ r) tar = some (found ++ r) := by
  induction a with
  | nil =>
    obtain rfl : found = [] := List.suffix_nil.mp (strstr_suffix h)
    obtain rfl : tar = [] := List.prefix_nil.mp (strstr_leading h)
    cases r <;> simp [strstr]
  | cons b a ih =>
    rw [strstr_cons] at h
    rw [List.cons_append, strstr_cons]
    by_cases hp : tar.isPrefixOf (b :: a) = true
    · rw [if_pos hp] at h
      obtain rfl := Option.some.inj h
      rw [if_pos]
      · rfl
      · rw [List.isPrefixOf_iff_prefix] at hp ⊢
        exact hp.trans (List.prefix_append _ _)
    · rw [if_neg hp] at h
      rw [if_neg, ih h]
      -- what is found later leaves room for all of `tar` in front of `r`
      rw [List.isPrefixOf_iff_prefix] at hp ⊢
      refine fun hc => hp (List.prefix_of_prefix_length_le hc (List.prefix_append (b :: a) r) ?_)
      have h1 := (strstr_leading h).length_le
      have h2 := (strstr_suffix h).length_le
      rw [List.length_cons]
      omega

/-- A prefix without `x` ends in front of it. -/
theorem prefix_of_notMem {l : List UInt8} (hx : x ∉ tar) (h : tar <+: l ++ x :: r) : tar <+: l := by
  by_cases hl : tar.length ≤ l.length
  · exact List.prefix_of_prefix_length_le h (List.prefix_append _ _) hl
  · have hp : l ++ [x] <+: tar := by
      refine List.prefix_of_prefix_length_le ⟨r, ?_⟩ h ?_
      · simp
      · rw [List.length_append, List.length_singleton]
        omega
    exact absurd (hp.mem (by simp)) hx

/-- A byte that the text does not have ends the search in front of it. -/
theorem strstr_append_of_none (hx : x ∉ tar) (h : strstr a tar = none) (r : List UInt8) :
    strstr (a ++ x :: r) tar = strstr r tar := by
  induction a with
  | nil =>
    rw [List.nil_append, strstr_cons, if_neg]
    rw [List.isPrefixOf_iff_prefix]
    intro hp
    obtain rfl : tar = [] := List.prefix_nil.mp (prefix_of_notMem (l := []) hx hp)
    simp [strstr] at h
  | cons b a ih =>
    rw [strstr_cons] at h
    split at h
    · cases h
    · rename_i hp
      rw [List.cons_append, strstr_cons, if_neg, ih h]
      rw [List.isPrefixOf_iff_prefix] at hp ⊢
      exact fun hc => hp (prefix_of_notMem (l := b :: a) hx hc)

end

/-! ## The header -/

def CR : UInt8 := 0x0d

def LF : UInt8 := 0x0a

/-- The name of the cookie of the session. -/
def AUTH : List UInt8 := (CStr.ofString "auth").val

/-- `tar` of `getCookie`. -/
def TAR : List UInt8 := AUTH ++ [KernelNvram.EQ]

/-- A cookie as it was sent, with what its name and its value stand for. -/
structure Cookie where
  name : List UInt8
  value : List UInt8
  nameText : List UInt8
  valueText : List UInt8
  name_unescapes : Unescapes name nameText
  value_unescapes : Unescapes value valueText
  separated : SEMICOLON ∉ name ++ value ∧ KernelNvram.EQ ∉ name

namespace Cookie

def sent (c : Cookie) : List UInt8 := c.name ++ KernelNvram.EQ :: c.value

def shown (c : Cookie) : List UInt8 := c.nameText ++ KernelNvram.EQ :: c.valueText

end Cookie

/-- Texts in order, separated by `; ` and ended by CR LF. -/
def headerOf (text : Cookie → List UInt8) : List Cookie → List UInt8
  | [] => [CR, LF]
  | [c] => text c ++ [CR, LF]
  | c :: cs => text c ++ SEMICOLON :: SPACE :: headerOf text cs

/-- What the cookie named `auth` stands for, or nothing. -/
def authValue : List Cookie → List UInt8
  | [] => []
  | c :: cs => if c.name = AUTH then c.valueText else authValue cs

/-- What stands behind `auth=` inside another cookie is by chance what is looked for. -/
def Chance (w : List UInt8) (cs : List Cookie) : Prop :=
  (if SEMICOLON ∈ w then w.takeWhile (· != SEMICOLON) = authValue cs
    else cs ≠ [] ∧ w = authValue cs) ∧ (authValue cs).length < TMP_LEN

/-- The first cookie with `auth=` in it is the one named so, is not the last one, has no separator
in its value and fits the buffer; or it is another, and what it gives is right by chance; or there
is none. -/
def Delivers : List Cookie → Prop
  | [] => True
  | c :: cs =>
    if c.name = AUTH then
      cs ≠ [] ∧ SEMICOLON ∉ c.valueText ∧ c.valueText.length < TMP_LEN
    else match strstr c.shown TAR with
      | none => Delivers cs
      | some found => Chance (found.drop TAR.length) cs

/-- The value is put into the buffer, and it is the one of the cookie named `auth`. -/
def Taken (r : Except Fault CStr) (cs : List Cookie) : Prop :=
  ∃ v, r = .ok v ∧ v.val = authValue cs

theorem tar_plain : SEMICOLON ∉ TAR ∧ SPACE ∉ TAR ∧ CR ∉ TAR ∧ LF ∉ TAR := by decide

/-- What is read from the place behind `auth=`. -/
theorem getCookie_found {text : CStr} {w r : List UInt8}
    (h : strstr text.val TAR = some (TAR ++ w ++ r)) :
    getCookie text (.ofString "auth") =
      let n : ℤ := if SEMICOLON ∈ w ++ r then ((w ++ r).takeWhile (· != SEMICOLON)).length
        else (w ++ r).length - 1
      if n < 0 ∨ TMP_LEN ≤ n then .error .overflow
      else .ok (CStr.read ((w ++ r).take n.toNat)) := by
  have htar : (CStr.ofString "auth").val ++ [KernelNvram.EQ] = TAR := rfl
  rw [getCookie]
  simp only [htar, h, List.append_assoc, List.drop_left]

theorem getCookie_none {text : CStr} (h : strstr text.val TAR = none) :
    getCookie text (.ofString "auth") = .ok CStr.empty := by
  have htar : (CStr.ofString "auth").val ++ [KernelNvram.EQ] = TAR := rfl
  rw [getCookie]
  simp only [htar, h]

/-- Only what is found matters. -/
theorem getCookie_congr {text text' : CStr} (h : strstr text.val TAR = strstr text'.val TAR) :
    getCookie text (.ofString "auth") = getCookie text' (.ofString "auth") := by
  have htar : (CStr.ofString "auth").val ++ [KernelNvram.EQ] = TAR := rfl
  rw [getCookie, getCookie]
  simp only [htar, h]

theorem takeWhile_append_of_mem {w : List UInt8} (hw : SEMICOLON ∈ w) (r : List UInt8) :
    (w ++ r).takeWhile (· != SEMICOLON) = w.takeWhile (· != SEMICOLON) := by
  induction w with
  | nil => cases hw
  | cons b w ih =>
    by_cases hb : b = SEMICOLON
    · simp [hb]
    · have hw' : SEMICOLON ∈ w := (List.mem_cons.mp hw).resolve_left (Ne.symm hb)
      simp [hb, ih hw']

theorem takeWhile_append_of_notMem {w : List UInt8} (hw : SEMICOLON ∉ w) (r : List UInt8) :
    (w ++ SEMICOLON :: r).takeWhile (· != SEMICOLON) = w := by
  induction w with
  | nil => simp
  | cons b w ih =>
    simp only [List.mem_cons, not_or] at hw
    simp [Ne.symm hw.1, ih hw.2]

theorem takeWhile_eq_self {w : List UInt8} :
    w.takeWhile (· != SEMICOLON) = w ↔ SEMICOLON ∉ w := by
  rw [List.takeWhile_eq_self_iff]
  constructor
  · exact fun h hm => by simpa using h _ hm
  · exact fun h b hb => by simpa using ne_of_mem_of_not_mem hb h

section
variable {text : CStr} {w r : List UInt8} {cs : List Cookie}

theorem found_free (h : strstr text.val TAR = some (TAR ++ w ++ r)) : (0 : UInt8) ∉ w ++ r :=
  fun h0 => text.property ((strstr_suffix h).mem (by
    rw [List.append_assoc]
    exact List.mem_append_right _ h0))

/-- A value with a separator behind it, in its own text or in the header. -/
theorem taken_of_separator (h : strstr text.val TAR = some (TAR ++ w ++ r))
    (hs : SEMICOLON ∈ w ++ r) :
    Taken (getCookie text (.ofString "auth")) cs ↔
      (w ++ r).takeWhile (· != SEMICOLON) = authValue cs ∧ (authValue cs).length < TMP_LEN := by
  have h0 := found_free h
  rw [getCookie_found h]
  generalize w ++ r = u at *
  have hp := List.takeWhile_prefix (p := (· != SEMICOLON)) (l := u)
  have hfree : (0 : UInt8) ∉ u.takeWhile (· != SEMICOLON) := fun hm => h0 (hp.mem hm)
  have htake : u.take (u.takeWhile (· != SEMICOLON)).length = u.takeWhile (· != SEMICOLON) :=
    (List.prefix_iff_eq_take.mp hp).symm
  dsimp only
  rw [if_pos hs, Int.toNat_natCast, htake, CStr.read_of_free hfree]
  constructor
  · rintro ⟨v, hv, heq⟩
    split at hv
    · cases hv
    · obtain rfl := Except.ok.inj hv
      rw [← heq]
      refine ⟨rfl, ?_⟩
      dsimp only
      omega
  · rintro ⟨heq, hlt⟩
    rw [← heq] at hlt
    exact ⟨⟨_, hfree⟩, if_neg (by omega), heq⟩

/-- The last value is taken with the carriage return. -/
theorem taken_of_last (h : strstr text.val TAR = some (TAR ++ w ++ [CR, LF]))
    (hs : SEMICOLON ∉ w) (hcs : Taken (getCookie text (.ofString "auth")) cs) :
    w ++ [CR] = authValue cs := by
  have h0 := found_free h
  have hs' : SEMICOLON ∉ w ++ [CR, LF] := by
    simpa [hs] using show SEMICOLON ≠ CR ∧ SEMICOLON ≠ LF by decide
  rw [getCookie_found h] at hcs
  obtain ⟨v, hv, heq⟩ := hcs
  dsimp only at hv
  rw [if_neg hs'] at hv
  split at hv
  · cases hv
  · obtain rfl := Except.ok.inj hv
    have htake : (w ++ [CR, LF]).take (((w ++ [CR, LF]).length : ℤ) - 1).toNat = w ++ [CR] := by
      have hn : (((w ++ [CR, LF]).length : ℤ) - 1).toNat = (w ++ [CR]).length := by
        simp only [List.length_append, List.length_cons, List.length_nil]
        omega
      rw [hn, show w ++ [CR, LF] = w ++ [CR] ++ [LF] by simp, List.take_left]
    rw [htake, CStr.read_of_free (fun hm => h0 (by simp at hm ⊢; tauto))] at heq
    exact heq

end

/-! ## The cookie of the session -/

theorem Cookie.shown_auth {c : Cookie} (h : c.name = AUTH) : c.shown = TAR ++ c.valueText := by
  have hn : c.nameText = AUTH := by
    rw [c.name_unescapes.eq_of_plain (by rw [h]; decide), h]
  rw [Cookie.shown, hn, TAR, List.append_assoc]
  rfl

theorem strstr_auth {c : Cookie} (h : c.name = AUTH) :
    strstr c.shown TAR = some (TAR ++ c.valueText) := by
  have hp : TAR.isPrefixOf (TAR ++ c.valueText) = true := by simp [List.isPrefixOf_iff_prefix]
  rw [Cookie.shown_auth h, show TAR ++ c.valueText = 0x61 :: ([0x75, 0x74, 0x68, 0x3d] ++ c.valueText)
    from rfl] at *
  rw [strstr_cons, if_pos hp]

theorem headerOf_cons (text : Cookie → List UInt8) (c : Cookie) {cs : List Cookie} (h : cs ≠ []) :
    headerOf text (c :: cs) = text c ++ SEMICOLON :: SPACE :: headerOf text cs := by
  cases cs with
  | nil => exact absurd rfl h
  | cons d cs => rfl

theorem headerOf_ne_nil (text : Cookie → List UInt8) (cs : List Cookie) : headerOf text cs ≠ [] := by
  rcases cs with _ | ⟨c, _ | ⟨d, cs⟩⟩ <;> simp [headerOf]

/-- The search in the unescaped header. -/
theorem taken_iff {cs : List Cookie} {text : CStr} (ht : text.val = headerOf Cookie.shown cs) :
    Taken (getCookie text (.ofString "auth")) cs ↔ Delivers cs := by
  induction cs generalizing text with
  | nil =>
    rw [getCookie_none (by rw [ht]; decide)]
    exact iff_of_true ⟨_, rfl, rfl⟩ trivial
  | cons c cs ih =>
    cases hc : strstr c.shown TAR with
    | none =>
      have hname : c.name ≠ AUTH := fun h => by simp [strstr_auth h] at hc
      have hval : authValue (c :: cs) = authValue cs := if_neg hname
      rw [Delivers, if_neg hname, hc]
      dsimp only
      by_cases hcs : cs = []
      · subst hcs
        have hnone : strstr text.val TAR = none := by
          rw [ht]
          exact strstr_append_of_none tar_plain.2.2.1 hc [LF]
        rw [getCookie_none hnone]
        exact iff_of_true ⟨_, rfl, hval.symm⟩ trivial
      · rw [headerOf_cons _ _ hcs] at ht
        have hfree : (0 : UInt8) ∉ headerOf Cookie.shown cs := fun h0 => text.property (by
          rw [ht]
          simp [h0])
        have hsame : strstr text.val TAR = strstr (headerOf Cookie.shown cs) TAR := by
          rw [ht, strstr_append_of_none tar_plain.1 hc]
          exact strstr_append_of_none (a := []) tar_plain.2.1 rfl _
        obtain ⟨text', ht'⟩ : ∃ text' : CStr, text'.val = headerOf Cookie.shown cs := ⟨⟨_, hfree⟩, rfl⟩
        rw [← ht'] at hsame
        rw [← ih ht', Taken, Taken, hval, getCookie_congr hsame]
    | some found =>
      obtain ⟨w, rfl⟩ := strstr_leading hc
      by_cases hcs : cs = []
      · subst hcs
        have hs : strstr text.val TAR = some (TAR ++ w ++ [CR, LF]) := by
          rw [ht]
          exact strstr_append_of_some hc [CR, LF]
        by_cases hw : SEMICOLON ∈ w
        · rw [taken_of_separator hs (List.mem_append_left _ hw), takeWhile_append_of_mem hw]
          by_cases hname : c.name = AUTH
          · obtain rfl : c.valueText = w := by
              rw [strstr_auth hname] at hc
              exact List.append_cancel_left (Option.some.inj hc)
            rw [authValue, if_pos hname, Delivers, if_pos hname]
            refine iff_of_false (fun h => ?_) (fun h => h.1 rfl)
            exact takeWhile_eq_self.mp h.1 hw
          · rw [authValue, if_neg hname, Delivers, if_neg hname, hc]
            dsimp only
            rw [Chance, List.drop_left, if_pos hw]
        · have hne : ¬ Taken (getCookie text (.ofString "auth")) [c] := by
            intro h
            have := taken_of_last hs hw h
            by_cases hname : c.name = AUTH
            · rw [authValue, if_pos hname] at this
              obtain rfl : c.valueText = w := by
                rw [strstr_auth hname] at hc
                exact List.append_cancel_left (Option.some.inj hc)
              simp at this
            · rw [authValue, if_neg hname] at this
              exact absurd this (by simp [authValue])
          refine iff_of_false hne fun h => ?_
          by_cases hname : c.name = AUTH
          · rw [Delivers, if_pos hname] at h
            exact h.1 rfl
          · rw [Delivers, if_neg hname, hc] at h
            dsimp only at h
            rw [Chance, List.drop_left, if_neg hw] at h
            exact h.1.1 rfl
      · rw [headerOf_cons _ _ hcs] at ht
        have hs := strstr_append_of_some hc (SEMICOLON :: SPACE :: headerOf Cookie.shown cs)
        rw [← ht] at hs
        rw [taken_of_separator hs (by simp)]
        by_cases hname : c.name = AUTH
        · obtain rfl : c.valueText = w := by
            rw [strstr_auth hname] at hc
            exact List.append_cancel_left (Option.some.inj hc)
          rw [authValue, if_pos hname, Delivers, if_pos hname]
          by_cases hw : SEMICOLON ∈ c.valueText
          · rw [takeWhile_append_of_mem hw]
            refine iff_of_false (fun h => ?_) fun h => h.2.1 hw
            exact takeWhile_eq_self.mp h.1 hw
          · rw [takeWhile_append_of_notMem hw]
            exact ⟨fun h => ⟨hcs, hw, h.2⟩, fun h => ⟨rfl, h.2.2⟩⟩
        · rw [authValue, if_neg hname, Delivers, if_neg hname, hc]
          dsimp only
          rw [Chance, List.drop_left]
          by_cases hw : SEMICOLON ∈ w
          · rw [takeWhile_append_of_mem hw, if_pos hw]
          · rw [takeWhile_append_of_notMem hw, if_neg hw, and_assoc]
            exact (and_iff_right hcs).symm

theorem headerOf_unescapes (cs : List Cookie) :
    Unescapes (headerOf Cookie.sent cs) (headerOf Cookie.shown cs) := by
  have hplain : ∀ s : List UInt8, (∀ b ∈ s, b ≠ 0 ∧ b ≠ PERCENT ∧ b ≠ PLUS) → Unescapes s s :=
    fun _ => Unescapes.of_plain
  have hcookie : ∀ c : Cookie, Unescapes c.sent c.shown := fun c =>
    c.name_unescapes.append (.plain (by decide) (by decide) (by decide) c.value_unescapes)
  have hend : Unescapes [CR, LF] [CR, LF] := hplain _ (by decide +kernel)
  induction cs with
  | nil => exact hend
  | cons c cs ih =>
    by_cases hcs : cs = []
    · subst hcs
      exact (hcookie c).append hend
    · rw [headerOf_cons _ _ hcs, headerOf_cons _ _ hcs]
      exact (hcookie c).append
        (.plain (by decide) (by decide) (by decide) (.plain (by decide) (by decide) (by decide) ih))

/-- A header of cookies leaves the value of the one named `auth` in the buffer exactly when the
search delivers it. -/
theorem parseCookieInfo_taken_iff (L : Libc) (junk : UInt8) (cs : List Cookie) (mem : List UInt8)
    (hL : L.ReadsHex) :
    Taken (parseCookieInfo L junk (headerOf Cookie.sent cs ++ 0 :: mem)) cs ↔ Delivers cs := by
  have hu := headerOf_unescapes cs
  obtain ⟨rest, hr⟩ := unescape_unescapes hL hu
    (n := (headerOf Cookie.sent cs ++ 0 :: mem).length) (by simp) junk mem
  have hne : (CStr.read (headerOf Cookie.sent cs ++ 0 :: mem)).len ≠ 0 := by
    rw [read_append_zero hu.source_plain, CStr.len]
    exact List.length_pos_iff.mpr (headerOf_ne_nil _ cs) |>.ne'
  rw [parseCookieInfo, if_neg hne, hr, read_append_zero hu.target_plain]
  exact taken_iff rfl

/-- A cookie whose name and value stand for themselves. -/
def Cookie.ofPlain (name value : List UInt8)
    (h : ∀ b ∈ name ++ value, b ≠ 0 ∧ b ≠ PERCENT ∧ b ≠ PLUS)
    (hs : SEMICOLON ∉ name ++ value ∧ KernelNvram.EQ ∉ name) : Cookie where
  name := name
  value := value
  nameText := name
  valueText := value
  name_unescapes := .of_plain fun b hb => h b (by simp [hb])
  value_unescapes := .of_plain fun b hb => h b (by simp [hb])
  separated := hs

theorem session_plain :
    ∀ b ∈ AUTH ++ [0x61, 0x62, 0x63], b ≠ 0 ∧ b ≠ PERCENT ∧ b ≠ PLUS := by
  decide +kernel

/-- `auth=abc`. -/
def session : Cookie := .ofPlain AUTH [0x61, 0x62, 0x63] session_plain (by decide)

theorem language_plain :
    ∀ b ∈ [0x6c, 0x61, 0x6e, 0x67] ++ [0x78], b ≠ 0 ∧ b ≠ PERCENT ∧ b ≠ PLUS := by
  decide +kernel

/-- `lang=x`. -/
def language : Cookie := .ofPlain [0x6c, 0x61, 0x6e, 0x67] [0x78] language_plain (by decide)

theorem parseCookieInfo_taken_first :
    Taken (parseCookieInfo libc 0 (headerOf Cookie.sent [session, language] ++ [0]))
      [session, language] ↔ Delivers [session, language] :=
  parseCookieInfo_taken_iff libc 0 [session, language] [] libc_readsHex

/-- As the last cookie it is taken with the carriage return. -/
theorem parseCookieInfo_last :
    ¬ Taken (parseCookieInfo libc 0 (headerOf Cookie.sent [language, session] ++ [0]))
      [language, session] := by
  rintro ⟨v, hv, hval⟩
  have hp : (parseCookieInfo libc 0 (headerOf Cookie.sent [language, session] ++ [0])).map
      Subtype.val = .ok [0x61, 0x62, 0x63, CR] := by decide
  rw [hv] at hp
  rw [Except.map, hval] at hp
  exact absurd hp (by decide)

end EzpFirmware.Httpd
