import EzpFirmware.Ddns.Reply

/-! # What the requests make of a reply

The loop skips the pieces without an opening tag and ends with the first one that has it. A
missing closing tag in this piece is a fault, and any code that does not start with a number is
read as 0.
-/
namespace EzpFirmware.Ddns
open Lib

section
variable {buffer piece reply : List UInt8} {pieces : List (List UInt8)}

/-! ## Reading a code as zero -/

theorem foldl_digits_eq_zero (ds : List UInt8) (n : ℕ) (hds : ∀ b ∈ ds, isDigit b = true) :
    ds.foldl (fun n b => n * 10 + (b.toNat - 0x30)) n = 0 ↔ n = 0 ∧ ∀ b ∈ ds, b = 0x30 := by
  induction ds generalizing n with
  | nil => simp
  | cons b ds ih =>
    have hb := hds b List.mem_cons_self
    simp only [isDigit, decide_eq_true_eq, UInt8.le_iff_toNat_le] at hb
    have hlow : 0x30 ≤ b.toNat := hb.1
    have hzero : b.toNat - 0x30 = 0 ↔ b = 0x30 := by
      rw [← UInt8.toNat_inj]
      change b.toNat - 48 = 0 ↔ b.toNat = 48
      omega
    rw [List.foldl_cons, ih _ fun d hd => hds d (List.mem_cons_of_mem b hd), Nat.add_eq_zero_iff,
      hzero, List.forall_mem_cons, and_assoc]
    apply and_congr_left
    intro _
    omega

theorem digits_eq_zero {limit : ℕ} (hlimit : 0 < limit) (s : List UInt8) :
    digits limit s = 0 ↔ ∀ b ∈ s.takeWhile isDigit, b = 0x30 := by
  rw [digits, Nat.min_eq_zero_iff,
    foldl_digits_eq_zero _ 0 fun b hb => List.mem_takeWhile_imp hb]
  simp [hlimit.ne']

/-- A code is read as 0 if and only if its number starts with no other digit. -/
theorem atoi_eq_zero (code : CStr) : atoi code = 0 ↔ StartsWithZeros code.val := by
  have hsigned : 0 < 2 ^ 31 := Nat.two_pow_pos 31
  have hlimit : 0 < 2 ^ 31 - 1 := Nat.le_of_ble_eq_true rfl
  rw [atoi, StartsWithZeros]
  cases hnumber : code.val.dropWhile fun b => b = SPACE ∨ 0x09 ≤ b ∧ b ≤ 0x0d with
  | nil => simp
  | cons b rest =>
    by_cases hminus : b = 0x2d
    · simp only [hminus, if_true, List.head?_cons, true_or, List.tail_cons, Int.neg_eq_zero,
        Int.natCast_eq_zero]
      exact digits_eq_zero hsigned rest
    · by_cases hplus : b = PLUS
      · simp only [hplus, if_neg (show PLUS ≠ 0x2d by decide), if_true, List.head?_cons,
          or_true, List.tail_cons, Int.natCast_eq_zero]
        exact digits_eq_zero hlimit rest
      · simp only [hminus, hplus, if_false, List.head?_cons, Option.some.injEq, or_self,
          Int.natCast_eq_zero]
        exact digits_eq_zero hlimit (b :: rest)

/-! ## One piece -/

/-- A piece leaves room for its terminator. -/
theorem fgets_eq (hpiece : piece.length < TMP_BUFFER) (hbuffer : buffer.length = TMP_BUFFER) :
    ∃ rest, fgets buffer piece = some ((CStr.read piece).stored ++ rest) ∧
      ((CStr.read piece).stored ++ rest).length = TMP_BUFFER := by
  obtain ⟨rest, hrest⟩ := CStr.exists_stored_append piece (buffer.drop (piece.length + 1))
  have hinside : 0 + (piece ++ [0]).length ≤ buffer.length := by
    rw [List.length_append, List.length_singleton, hbuffer]
    omega
  have hpoke : poke buffer 0 (piece ++ [0]) = (CStr.read piece).stored ++ rest := by
    rw [← hrest, poke, List.take_zero, List.nil_append, Nat.zero_add, List.length_append,
      List.length_singleton, List.append_assoc]
    rfl
  have hfgets : fgets buffer piece = some (poke buffer 0 (piece ++ [0])) := if_pos hinside
  rw [hpoke] at hfgets
  exact ⟨rest, hfgets, (pokeIn_length hfgets).trans hbuffer⟩

/-- A string in the buffer, read from a place in it. -/
theorem stringAt_stored {text : CStr} {p : ℕ} (hp : p ≤ text.len) (rest : List UInt8) :
    stringAt (text.stored ++ rest) p = some (text.skip p) := by
  have hdrop : (text.stored ++ rest).drop p = (text.skip p).stored ++ rest := by
    rw [CStr.stored, List.append_assoc, List.drop_append_of_le_length hp, CStr.stored, CStr.skip,
      List.append_assoc]
  rw [stringAt, hdrop, CStr.read_stored_append, if_pos (by simp [CStr.stored])]

/-- The same with a terminator put into the string. -/
theorem stringAt_poke {text : CStr} {p q : ℕ} (hp : p ≤ text.len) (hq : q ≤ text.len)
    (rest : List UInt8) :
    (pokeIn (text.stored ++ rest) q [0]).bind (fun buffer => stringAt buffer p) =
      some (if p ≤ q then (text.take q).skip p else text.skip p) := by
  have hlen : (text.take q).len = q := by
    rw [CStr.take_len, Nat.min_eq_left hq]
  have hinside : q + [(0 : UInt8)].length ≤ (text.stored ++ rest).length := by
    rw [List.length_append, CStr.stored_length, List.length_singleton]
    omega
  have htake : (text.stored ++ rest).take q = (text.take q).val := by
    rw [CStr.stored, List.append_assoc, List.take_append_of_le_length hq]
    rfl
  have hpoke : poke (text.stored ++ rest) q [0] =
      (text.take q).stored ++ (text.stored ++ rest).drop (q + 1) := by
    rw [poke, htake]
    rfl
  rw [pokeIn, if_pos hinside, Option.bind_some, hpoke]
  by_cases hpq : p ≤ q
  · rw [if_pos hpq, stringAt_stored (hlen.symm ▸ hpq)]
  · have hbehind : ((text.take q).stored ++ (text.stored ++ rest).drop (q + 1)).drop p =
        (text.stored ++ rest).drop p := by
      obtain ⟨k, rfl⟩ := Nat.exists_eq_add_of_lt (not_le.mp hpq)
      have hsplit : q + k + 1 = (text.take q).stored.length + k := by
        rw [CStr.stored_length, hlen]
        omega
      rw [hsplit, List.drop_length_add_append, List.drop_drop, CStr.stored_length, hlen]
    rw [if_neg hpq, stringAt, hbehind]
    exact stringAt_stored hp rest

/-- What a piece gives, told from its text. -/
theorem readCode_stored (text : CStr) (rest : List UInt8) :
    readCode (text.stored ++ rest) =
      if (placeOf text.val openTag).isSome then
        if (placeOf text.val closeTag).isSome then
          some (some (atoi (CStr.read (codeText text.val))))
        else none
      else some none := by
  have htext : stringAt (text.stored ++ rest) 0 = some text := stringAt_stored (Nat.zero_le _) rest
  simp only [readCode, htext, Option.bind_eq_bind, Option.bind_some]
  cases hopen : placeOf text.val openTag with
  | none => rfl
  | some p =>
    cases hclose : placeOf text.val closeTag with
    | none => rfl
    | some q =>
      have hp : p + openTag.length ≤ text.len := placeOf_le hopen
      have hq : q ≤ text.len := le_trans (Nat.le_add_right q _) (placeOf_le hclose)
      have hcode : CStr.read (codeText text.val) =
          if p + openTag.length ≤ q then (text.take q).skip (p + openTag.length)
          else text.skip (p + openTag.length) := by
        rw [codeText, hopen, hclose]
        simp only [Option.getD_some]
        split
        · exact CStr.read_val ((text.take q).skip (p + openTag.length))
        · exact CStr.read_val (text.skip (p + openTag.length))
      have hstring := stringAt_poke hp hq rest
      rw [← hcode] at hstring
      simp only [Option.bind_some, Option.isSome_some, if_true]
      rw [← Option.bind_assoc, hstring, Option.bind_some]

/-! ## All pieces -/

/-- The loop, told from the first piece with an opening tag. -/
theorem replyLoop_eq (hpieces : ∀ piece ∈ pieces, piece.length < TMP_BUFFER)
    (hbuffer : buffer.length = TMP_BUFFER) :
    replyLoop buffer pieces =
      ((pieces.map fun piece => (CStr.read piece).val).find? fun text =>
        (placeOf text openTag).isSome).elim (some none) fun text =>
          if (placeOf text closeTag).isSome then
            some (some (atoi (CStr.read (codeText text))))
          else none := by
  induction pieces generalizing buffer with
  | nil => rfl
  | cons piece pieces ih =>
    obtain ⟨rest, hfgets, hlen⟩ := fgets_eq (hpieces piece List.mem_cons_self) hbuffer
    rw [replyLoop, hfgets, Option.bind_some, readCode_stored, List.map_cons, List.find?_cons]
    by_cases hopen : (placeOf (CStr.read piece).val openTag).isSome = true
    · rw [if_pos hopen, hopen]
      by_cases hclose : (placeOf (CStr.read piece).val closeTag).isSome = true
      · rw [if_pos hclose]
        simp [hclose]
      · rw [if_neg hclose]
        simp [hclose]
    · rw [if_neg hopen, Bool.eq_false_iff.mpr hopen]
      exact ih (fun p hp => hpieces p (List.mem_cons_of_mem piece hp)) hlen

theorem replyPieces_length (reply : List UInt8) :
    ∀ piece ∈ replyPieces reply, piece.length < TMP_BUFFER := fun _ hpiece =>
  Nat.lt_succ_of_le (pieces_length (Nat.le_of_ble_eq_true rfl) hpiece)

/-- The loop over a reply. -/
theorem replyLoop_reply (W : World) (reply : List UInt8) :
    replyLoop W.buffer.val (replyPieces reply) =
      (firstOpening reply).elim (some none) fun text =>
        if (placeOf text closeTag).isSome then
          some (some (atoi (CStr.read (codeText text))))
        else none :=
  replyLoop_eq (replyPieces_length reply) W.buffer.property

/-! ## The results -/

theorem checkResult_eq_zero (code : ℤ) : checkResult code = 0 ↔ code = 0 := by
  rw [checkResult]
  split
  · simp [*]
  · rename_i hcode
    simp only [hcode, iff_false]
    split
    · decide
    · split <;> decide

theorem updateResult_eq_zero (code : ℤ) : updateResult code = 0 ↔ code = 0 := by
  rw [updateResult]
  split
  · simp [*]
  · rename_i hcode
    simp only [hcode, iff_false]
    split
    · decide
    · split
      · decide
      · split
        · decide
        · split <;> decide

/-- A code that is 0 is read from a text that starts with zeros. -/
theorem atoi_codeText (reply : List UInt8) {text : List UInt8}
    (h : firstOpening reply = some text) :
    atoi (CStr.read (codeText text)) = 0 ↔ StartsWithZeros (codeText text) := by
  obtain ⟨piece, -, rfl⟩ := List.mem_map.mp (List.mem_of_find?_eq_some h)
  have hfree : (0 : UInt8) ∉ codeText (CStr.read piece).val := by
    rw [codeText]
    split
    · exact fun hzero =>
        (CStr.read piece).property (List.mem_of_mem_take (List.mem_of_mem_drop hzero))
    · exact fun hzero => (CStr.read piece).property (List.mem_of_mem_drop hzero)
  rw [atoi_eq_zero, CStr.read_of_free hfree]

/-- A request that is sent survives a reply if and only if the reply answers. -/
theorem sendRequest_iff {result : ℤ → ℤ} (hresult : ∀ code, result code = 0 ↔ code = 0)
    {W : World} (hpipe : W.pipe = some reply) :
    (∃ ret, sendRequest result W = some ret ∧
      (ret = 0 → ∃ reply, W.pipe = some reply ∧ HasZero reply)) ↔ Answers reply := by
  have hnone : result QNAPDDNS_ERR_NETWORK_OUT ≠ 0 := fun h =>
    absurd ((hresult _).mp h) (by decide)
  have hsend : sendRequest result W = (replyLoop W.buffer.val (replyPieces reply)).map fun code =>
      result (code.getD QNAPDDNS_ERR_NETWORK_OUT) := by
    rw [sendRequest, hpipe]
  have hzero : (∃ reply, W.pipe = some reply ∧ HasZero reply) ↔ HasZero reply := by
    rw [hpipe]
    simp
  rw [hsend, replyLoop_reply, hzero, Answers]
  cases hfirst : firstOpening reply with
  | none => simp [hnone]
  | some text =>
    by_cases hclose : (placeOf text closeTag).isSome = true
    · have hpart := (placeOf_isSome text closeTag).mp hclose
      simp [hclose, hpart, hresult, atoi_codeText reply hfirst]
    · have hpart : ¬closeTag <:+: text := fun h => hclose ((placeOf_isSome text closeTag).mpr h)
      simp [hclose, hpart]

end

/-! ## The requests under any reply

A request survives a reply if and only if the reply answers it. A reply whose first code is
closed and is a number always does.
-/

variable {W : World} {reply : List UInt8} {result : ℤ → ℤ}

/-! ## One request -/

/-- A request that ends in front of the reply. -/
theorem survives_of_failure {ret : Option ℤ} {e : ℤ} {reply? : Option (List UInt8)}
    (h : ret = some e) (he : e ≠ 0) :
    ∃ ret', ret = some ret' ∧ (ret' = 0 → ∃ reply, reply? = some reply ∧ HasZero reply) :=
  ⟨e, h, fun hzero => absurd hzero he⟩

/-- Behind an open file everything depends on the reply. -/
theorem sendRequest_survives (hresult : ∀ code, result code = 0 ↔ code = 0) (W : World) :
    (∃ ret, sendRequest result W = some ret ∧
      (ret = 0 → ∃ reply, W.pipe = some reply ∧ HasZero reply)) ↔
      ∀ reply, W.pipe = some reply → Answers reply := by
  cases hpipe : W.pipe with
  | none =>
    have hsend : sendRequest result W = some QNAPDDNS_ERR_NETWORK_OUT := by
      rw [sendRequest, hpipe]
    exact iff_of_true (survives_of_failure hsend (by decide)) fun _ h => nomatch h
  | some reply =>
    have hiff := sendRequest_iff hresult hpipe
    rw [hpipe] at hiff
    rw [hiff]
    simp

theorem requestWithName_survives (hresult : ∀ code, result code = 0 ↔ code = 0) (dname : CStr)
    (W : World) :
    (∃ ret, requestWithName result dname W = some ret ∧
      (ret = 0 → ∃ reply, W.pipe = some reply ∧ HasZero reply)) ↔
      ∀ reply, isValidMycloudwifiName dname = 0 ∧ W.fileOpens = true ∧ W.pipe = some reply →
        Answers reply := by
  have hname : isValidMycloudwifiName dname = 0 ∨ isValidMycloudwifiName dname = 1 ∨
      isValidMycloudwifiName dname = 2 := by
    rw [isValidMycloudwifiName]
    split
    · simp
    · split
      · simp
      · split <;> simp
  rw [requestWithName]
  obtain hvalid | hinvalid | hused := hname
  · simp only [hvalid, Nat.zero_ne_one, if_false, OfNat.zero_ne_ofNat, true_and]
    cases W.fileOpens with
    | false =>
      exact iff_of_true (survives_of_failure (if_pos rfl) (by decide)) fun _ h => nomatch h.1
    | true =>
      rw [if_neg (fun h => nomatch h), sendRequest_survives hresult]
      simp
  · exact iff_of_true (survives_of_failure (if_pos hinvalid) (by decide)) fun _ h => by
      rw [hinvalid] at h
      exact absurd h.1 (by decide)
  · rw [if_neg (by rw [hused]; decide)]
    exact iff_of_true (survives_of_failure (if_pos hused) (by decide)) fun _ h => by
      rw [hused] at h
      exact absurd h.1 (by decide)

theorem survives_iff (r : Request) (W : World) :
    Survives r W ↔ ∀ reply, r.Gets W reply → Answers reply := by
  cases r with
  | check dname => exact requestWithName_survives checkResult_eq_zero dname W
  | set dname => exact requestWithName_survives updateResult_eq_zero dname W
  | disable =>
    simp only [Survives, Request.run, disableMycloudwifiDdns, Request.Gets, Request.IsNamed,
      true_and]
    cases W.fileOpens with
    | false =>
      exact iff_of_true (survives_of_failure (if_pos rfl) (by decide)) fun _ h => nomatch h.1
    | true =>
      rw [if_neg (fun h => nomatch h), sendRequest_survives updateResult_eq_zero]
      simp
  | update =>
    simp only [Survives, Request.run, updateMycloudwifiDdns, Request.Gets, Request.IsNamed,
      true_and]
    cases W.fileOpens with
    | false =>
      exact iff_of_true (survives_of_failure (if_pos rfl) (by decide)) fun _ h => nomatch h.1
    | true =>
      rw [if_neg (fun h => nomatch h), sendRequest_survives updateResult_eq_zero]
      simp

/-! ## The same code -/

/-- What a sent request gives depends on the first code alone. -/
theorem sendRequest_firstCode (hpipe : W.pipe = some reply) :
    sendRequest result W = (firstCode reply).elim (some (result QNAPDDNS_ERR_NETWORK_OUT))
      fun code => code.map fun code => result (atoi (CStr.read code)) := by
  have hsend : sendRequest result W = (replyLoop W.buffer.val (replyPieces reply)).map fun code =>
      result (code.getD QNAPDDNS_ERR_NETWORK_OUT) := by
    rw [sendRequest, hpipe]
  rw [hsend, replyLoop_reply, firstCode]
  cases firstOpening reply with
  | none => rfl
  | some text => by_cases hclose : (placeOf text closeTag).isSome = true <;> simp [hclose]

/-- Requests that get as far as a reply. -/
theorem run_set {dname : CStr} (h : (Request.set dname).Gets W reply) :
    (Request.set dname).run W = sendRequest updateResult W := by
  obtain ⟨hname, hopen, -⟩ := h
  have hvalid : isValidMycloudwifiName dname = 0 := hname
  simp [Request.run, setMycloudwifiDdns, requestWithName, hvalid, hopen]

theorem run_disable (h : Request.disable.Gets W reply) :
    Request.disable.run W = sendRequest updateResult W := by
  simp [Request.run, disableMycloudwifiDdns, h.2.1]

theorem run_update (h : Request.update.Gets W reply) :
    Request.update.run W = sendRequest updateResult W := by
  simp [Request.run, updateMycloudwifiDdns, h.2.1]

/-! ## Replies with a number -/

/-- The element around the code of a text. -/
theorem element_within {text : List UInt8} {p q : ℕ} (hopen : placeOf text openTag = some p)
    (hclose : placeOf text closeTag = some q) (hpq : p + openTag.length ≤ q) :
    openTag ++ codeText text ++ closeTag <:+: text := by
  have hcode : codeText text = (text.take q).drop (p + openTag.length) := by
    rw [codeText, hopen, hclose]
    exact if_pos hpq
  obtain ⟨rest, hrest⟩ := placeOf_leading hclose
  refine ⟨text.take p, rest, ?_⟩
  have hq : q ≤ text.length := le_trans (Nat.le_add_right q _) (placeOf_le hclose)
  have hbehind : (text.take q).drop (p + openTag.length) ++ text.drop q =
      text.drop (p + openTag.length) := by
    conv_rhs => rw [← List.take_append_drop q text]
    rw [List.drop_append_of_le_length]
    rwa [List.length_take_of_le hq]
  have hsplit := placeOf_split hopen
  rw [← hbehind, ← hrest, ← hcode] at hsplit
  simpa only [List.append_assoc] using hsplit.symm

theorem zeros_of_digits {code : List UInt8} (hdigits : ∀ b ∈ code, isDigit b = true)
    (hzeros : StartsWithZeros code) : ∀ b ∈ code, b = 0x30 := by
  cases code with
  | nil => simp
  | cons b code =>
    have hb := hdigits b List.mem_cons_self
    simp only [isDigit, decide_eq_true_eq, UInt8.le_iff_toNat_le] at hb
    have hne (k : UInt8) (hk : k.toNat < 0x30) : b ≠ k := fun h => by
      rw [h] at hb
      exact absurd hb.1 (not_le.mpr hk)
    have hwhite : ¬(b = SPACE ∨ 0x09 ≤ b ∧ b ≤ 0x0d) := by
      rintro (h | h)
      · exact hne SPACE (by decide) h
      · exact absurd (hb.1.trans (UInt8.le_iff_toNat_le.mp h.2)) (by decide)
    have htake : (b :: code).takeWhile isDigit = b :: code :=
      List.takeWhile_eq_self_iff.mpr hdigits
    rw [StartsWithZeros, List.dropWhile_cons_of_neg (by simpa using hwhite)] at hzeros
    simpa [hne 0x2d (by decide), hne PLUS (by decide), htake] using hzeros

/-- A reply whose first code is closed and has nothing but digits is answered. -/
theorem answers_of_digits {text : List UInt8} {p q : ℕ} (hfirst : firstOpening reply = some text)
    (hopen : placeOf text openTag = some p) (hclose : placeOf text closeTag = some q)
    (hpq : p + openTag.length ≤ q) (hne : codeText text ≠ [])
    (hdigits : ∀ b ∈ codeText text, isDigit b = true) : Answers reply := by
  intro text' htext'
  obtain rfl : text = text' := Option.some.inj (hfirst.symm.trans htext')
  refine ⟨(placeOf_isSome text closeTag).mp (by rw [hclose]; rfl), fun hzeros => ?_⟩
  obtain ⟨piece, hpiece, rfl⟩ := List.mem_map.mp (List.mem_of_find?_eq_some hfirst)
  have hpart : (CStr.read piece).val <:+: reply :=
    (List.takeWhile_prefix _).isInfix.trans (infix_of_mem_pieces hpiece)
  exact ⟨codeText (CStr.read piece).val, (element_within hopen hclose hpq).trans hpart, hne,
    zeros_of_digits hdigits hzeros⟩

/-! ## All requests -/

/-- A request survives what it is given if and only if the reply it gets answers it; and requests
that get the same first code have the same result. -/
theorem requests_survive_iff (r : Request) (W : World) :
    (Survives r W ↔ ∀ reply, r.Gets W reply → Answers reply) ∧
    ∀ dname W₁ W₂ W₃ reply₁ reply₂ reply₃, (Request.set dname).Gets W₁ reply₁ →
      Request.disable.Gets W₂ reply₂ → Request.update.Gets W₃ reply₃ →
      firstCode reply₁ = firstCode reply₂ → firstCode reply₂ = firstCode reply₃ →
      (Request.set dname).run W₁ = Request.disable.run W₂ ∧
        Request.disable.run W₂ = Request.update.run W₃ := by
  refine ⟨survives_iff r W, ?_⟩
  intro dname W₁ W₂ W₃ reply₁ reply₂ reply₃ hset hdisable hupdate h₁₂ h₂₃
  rw [run_set hset, run_disable hdisable, run_update hupdate, sendRequest_firstCode hset.2.2,
    sendRequest_firstCode hdisable.2.2, sendRequest_firstCode hupdate.2.2, h₁₂, h₂₃]
  exact ⟨rfl, rfl⟩

/-- A world with a reply. -/
def worldWith (reply : List UInt8) : World where
  fileOpens := true
  pipe := some reply
  buffer := ⟨List.replicate TMP_BUFFER 0, List.length_replicate⟩

/-- A line with an opening tag alone is a fault. -/
theorem no_closing_tag : ¬Survives .disable (worldWith (openTag ++ [0x30, LF])) := by
  rw [survives_iff]
  intro h
  have hfirst : firstOpening (openTag ++ [0x30, LF]) = some (openTag ++ [0x30, LF]) := by decide
  have hanswers := h _ ⟨trivial, rfl, rfl⟩ _ hfirst
  have hplace : placeOf (openTag ++ [0x30, LF]) closeTag = none := by decide
  exact placeOf_eq_none.mp hplace hanswers.1

end EzpFirmware.Ddns
