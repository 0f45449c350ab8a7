import EzpFirmware.Qcloud.AddressLists

/-! # The rounds over a list of addresses

A round takes the text up to the end of the next protocol and the body behind it. When that is
one item of the list, the round gives the text of this item, and leaves the copy as it was.
-/
namespace EzpFirmware.Qcloud
open Lib

variable {dotted : Bool} {x : Parts} {defPort : ℤ} {text front junk protocol : List UInt8}
  {stop : ℕ} {ipAddr : UInt32}

/-! ## The parts of an item -/

namespace Parts.IsItem
variable (h : x.IsItem dotted)
include h

theorem plain_body {b : UInt8} (hb : b ∈ x.body) : IsPlain b :=
  h.plain b (List.mem_append_right _ hb)

theorem plain_address {b : UInt8} (hb : b ∈ x.address) : IsPlain b :=
  h.plain_body (List.mem_append_left _ (List.mem_append_left _ hb))

theorem plain_port {p : List UInt8} (hp : x.port = some p) {b : UInt8} (hb : b ∈ p) :
    IsPlain b := by
  apply h.plain_body
  apply List.mem_append_left _ (List.mem_append_right _ _)
  rw [portText, hp]
  exact List.mem_cons_of_mem COLON hb

theorem path_notMem : PATH ∉ x.address ++ x.portText := by
  rw [List.mem_append, not_or]
  refine ⟨h.address.2.2, ?_⟩
  rw [portText]
  cases hport : x.port with
  | none => exact List.not_mem_nil
  | some p =>
    rw [Option.elim_some, List.mem_cons, not_or]
    exact ⟨by decide, (h.port p hport).1⟩

end Parts.IsItem

theorem zero_notMem {a : List UInt8} (h : ∀ b ∈ a, IsPlain b) : (0 : UInt8) ∉ a :=
  fun hb => (h 0 hb).1 rfl

theorem isSpace_of_plain {a : List UInt8} (h : ∀ b ∈ a, IsPlain b) :
    ∀ b ∈ a, isSpace b = false := fun b hb => (h b hb).2.2

/-! ## Port and address -/

/-- The port of an item is read from behind its colon. -/
theorem portRound (h : x.IsItem dotted) (front junk : List UInt8) :
    ∃ z junk', front ++ (x.address ++ x.portText) ++ 0 :: junk =
        front ++ x.address ++ z :: junk' ∧ (z = COLON ∨ z = 0) ∧
      (strchrAt (front ++ x.address ++ z :: junk') front.length COLON).elim
        (some (front ++ x.address ++ 0 :: junk', defPort))
        (fun q => utilReadInteger (front ++ x.address ++ 0 :: junk') (q + 1) PORT_MIN PORT_MAX) =
      some (front ++ x.address ++ 0 :: junk', x.portOf defPort) := by
  have hfree : (0 : UInt8) ∉ x.address := zero_notMem fun b hb => h.plain_address hb
  cases hport : x.port with
  | none =>
    refine ⟨0, junk, by simp [Parts.portText, hport], .inr rfl, ?_⟩
    rw [strchrAt_eq (by decide) hfree h.address.2.1 (.inr rfl), if_neg (by decide)]
    simp [Parts.portOf, hport]
  | some p =>
    obtain ⟨-, v, hv, hmin, hmax⟩ := h.port p hport
    have hne : p ≠ [] := by
      rintro rfl
      cases hv
    have hplain : ∀ b ∈ p, IsPlain b := fun b hb => h.plain_port hport hb
    refine ⟨COLON, p ++ 0 :: junk, by simp [Parts.portText, hport], .inl rfl, ?_⟩
    rw [strchrAt_eq (by decide) hfree h.address.2.1 (.inl rfl), if_pos rfl, Option.elim_some]
    have hmem : front ++ x.address ++ 0 :: (p ++ 0 :: junk) =
        (front ++ x.address ++ [0]) ++ p ++ 0 :: junk := by simp
    have hlen : (front ++ x.address).length + 1 = (front ++ x.address ++ [0]).length := by
      simp only [List.length_append, List.length_singleton]
    rw [hmem, hlen, utilReadInteger, trimAt_plain (zero_notMem hplain) (isSpace_of_plain hplain) hne]
    simp only [Option.bind_eq_bind, Option.bind_some]
    rw [textAt_of_free (zero_notMem hplain), hv, Option.bind_some, if_pos ⟨hmin, hmax⟩]
    simp [Parts.portOf, hport, hv]

/-- The address of an item is read from its front. -/
theorem utilReadIpv4Str_item (h : x.IsItem dotted) (front junk : List UInt8) (ipAddr : UInt32) :
    utilReadIpv4Str (front ++ x.address ++ 0 :: junk) front.length ipAddr =
      (front ++ x.address ++ 0 :: junk,
        if scansFour x.address then NO_ERROR else ERR_INVALID_VALUE, x.nextAddr ipAddr) := by
  have hplain : ∀ b ∈ x.address, IsPlain b := fun b hb => h.plain_address hb
  rw [utilReadIpv4Str,
    trimAt_plain (zero_notMem hplain) (isSpace_of_plain hplain) h.address.1]
  simp only [textAt_of_free (zero_notMem hplain)]
  rw [Parts.nextAddr]
  split <;> rfl

/-! ## One round -/

/-- The round behind a protocol: the body of an item, with a comma or the end of the text behind
it. -/
theorem itemBody_item (h : x.IsItem dotted) {z : UInt8} (hz : z = COMMA ∨ z = 0) :
    itemBody text defPort dotted protocol (front ++ x.body ++ z :: junk) front.length stop ipAddr =
      if dwordAlign (URL_STR_LEN + 1) ≤ (protocol ++ x.body).length then .overflow
      else
        .entry (x.entry (protocol ++ x.body) defPort (pathOf text) ipAddr)
          (front ++ x.body ++ z :: junk)
          (if z = COMMA then (front ++ x.body).length + 1 else stop) (x.nextAddr ipAddr) := by
  have hbody : ∀ b ∈ x.body, IsPlain b := fun b hb => h.plain_body hb
  have hcomma : COMMA ∉ x.body := fun hb => (hbody _ hb).2.1 rfl
  have hfront : (0 : UInt8) ∉ x.address ++ x.portText := zero_notMem fun b hb =>
    hbody b (List.mem_append_left _ hb)
  have haddress : (0 : UInt8) ∉ x.address := zero_notMem fun b hb => h.plain_address hb
  -- the list separator and the path
  obtain ⟨hcut, hrestore⟩ := cut_restore COMMA_ne (zero_notMem hbody) hcomma hz front junk
  obtain ⟨z₂, junk₂, hmem₂, hz₂⟩ : ∃ z₂ junk₂, front ++ x.body ++ 0 :: junk =
      front ++ (x.address ++ x.portText) ++ z₂ :: junk₂ ∧ (z₂ = PATH ∨ z₂ = 0) := by
    cases hpath : x.path with
    | none => exact ⟨0, junk, by simp [Parts.body, Parts.pathText, hpath], .inr rfl⟩
    | some p => exact ⟨PATH, p ++ 0 :: junk, by simp [Parts.body, Parts.pathText, hpath], .inl rfl⟩
  obtain ⟨hcut₂, hrestore₂⟩ := cut_restore (by decide) hfront h.path_notMem hz₂ front junk₂
  -- the port
  obtain ⟨z₃, junk₃, hmem₃, hz₃, hport⟩ := @portRound _ _ defPort h front junk₂
  obtain ⟨hcut₃, hrestore₃⟩ := cut_restore (by decide) haddress h.address.2.1 hz₃ front junk₃
  have htrim : trimAt (front ++ (x.address ++ x.portText) ++ 0 :: junk₂) front.length =
      some (front ++ (x.address ++ x.portText) ++ 0 :: junk₂, front.length) :=
    trimAt_plain hfront (isSpace_of_plain fun b hb => hbody b (List.mem_append_left _ hb))
      (List.append_ne_nil_of_left_ne_nil h.address.1 _) front junk₂
  have htext := textAt_of_free (zero_notMem hbody) front junk
  rw [hmem₂] at hcut hrestore htext
  rw [hmem₃] at hcut₂ hrestore₂ htrim
  have hlist := strchrAt_eq COMMA_ne (zero_notMem hbody) hcomma hz front junk
  rw [itemBody]
  generalize strchrAt (front ++ x.body ++ z :: junk) front.length COMMA = listSep
    at hcut hrestore hlist ⊢
  simp only [hcut, hcut₂, htrim, hcut₃, hport, utilReadIpv4Str_item h, hrestore₃, hrestore₂, htext,
    hrestore]
  have hnext : listSep.elim stop (· + 1) =
      if z = COMMA then (front ++ x.body).length + 1 else stop := by
    rw [hlist]
    split <;> rfl
  have herr : ERR_INVALID_VALUE ≠ NO_ERROR := by decide
  rw [hnext, Parts.entry]
  by_cases hfour : scansFour x.address = true
  · simp [hfour]
  · have hnames : ¬dotted = true := fun hd => hfour (h.numeric hd)
    simp [hfour, hnames, herr]

/-- A round over a text that starts with a protocol and the body of an item. -/
theorem itemRound_item (h : x.IsItem dotted) {rest : List UInt8}
    (hrest : rest = [] ∨ ∃ behind, rest = COMMA :: behind)
    (hfree : (0 : UInt8) ∉ protocol ++ x.body ++ rest)
    (hlead : prefixLen (protocol ++ x.body ++ rest) = protocol.length) :
    itemRound text defPort dotted (front ++ (protocol ++ x.body ++ rest) ++ 0 :: junk) front.length
        stop ipAddr =
      if dwordAlign (URL_STR_LEN + 1) ≤ (protocol ++ x.body).length then .overflow
      else
        .entry (x.entry (protocol ++ x.body) defPort (pathOf text) ipAddr)
          (front ++ (protocol ++ x.body ++ rest) ++ 0 :: junk)
          (if rest = [] then stop else (front ++ protocol ++ x.body).length + 1)
          (x.nextAddr ipAddr) := by
  obtain ⟨z, junk', hmem, hz, hnil⟩ : ∃ z junk', rest ++ 0 :: junk = z :: junk' ∧
      (z = COMMA ∨ z = 0) ∧ (z = COMMA ↔ rest ≠ []) := by
    obtain rfl | ⟨behind, rfl⟩ := hrest
    · exact ⟨0, junk, rfl, .inr rfl, by simp [COMMA_ne.symm]⟩
    · exact ⟨COMMA, behind ++ 0 :: junk, rfl, .inl rfl, by simp⟩
  have hbuffer : front ++ (protocol ++ x.body ++ rest) ++ 0 :: junk =
      (front ++ protocol) ++ x.body ++ z :: junk' := by
    simp only [List.append_assoc, hmem]
  have htake : (protocol ++ x.body ++ rest).take protocol.length = protocol := by
    rw [List.append_assoc, List.take_left]
  rw [itemRound, textAt_of_free hfree, hlead, htake, hbuffer]
  by_cases hlong : dwordAlign (URL_STR_LEN + 1) ≤ protocol.length
  · have htotal : dwordAlign (URL_STR_LEN + 1) ≤ (protocol ++ x.body).length := by
      rw [List.length_append]
      exact hlong.trans (Nat.le_add_right _ _)
    simp only [hlong, htotal, if_true]
  · simp only [hlong, if_false]
    rw [← List.length_append, itemBody_item h hz]
    simp [hnil, ite_not]

end EzpFirmware.Qcloud
