import EzpFirmware.Bcclient.TagCodec

/-! # The tags of a packet are read back

`GetTagData` walks through the packet by the stored lengths and stops at the
first tag with the id. For the packet that is made from a list of tags, that is
the tag of the first successful call with the id.
-/
namespace EzpFirmware.Bcclient
open Lib

/-- What a call keeps of its data fits the data area of its kind. -/
def AddCall.Small (c : AddCall) : Prop :=
  c.payload.length ≤ if c.ext then EXT_DATA_TAG_MAX_SIZE else MAX_TAG_DATA_SIZE

/-- An id of either kind. -/
def TagId (n : ℕ) : Prop := n ≠ 0 ∧ n ≠ TAG_EXTENSION.toNat ∧ n < 2 ^ 31

theorem AddCall.WellIded.tagId {c : AddCall} (h : c.WellIded) : TagId c.id := by
  unfold WellIded at h
  have hext : TAG_EXTENSION.toNat = 202 := rfl
  split_ifs at h
  · exact ⟨by omega, by omega, h.2⟩
  · exact ⟨by omega, h.2.2, by omega⟩

theorem toNat_ofNat_of_lt {n : ℕ} (h : n < 256) : (UInt8.ofNat n).toNat = n := by
  rw [UInt8.toNat_ofNat']
  omega

section
variable {c : AddCall} (hs : c.Small)
include hs

theorem AddCall.Small.length_lt : c.payload.length < 251 := by
  unfold Small at hs
  split_ifs at hs
  · rw [EXT_DATA_TAG_MAX_SIZE] at hs
    omega
  · rw [MAX_TAG_DATA_SIZE] at hs
    omega

/-- The bytes of an ordinary tag. -/
theorem slot_bytes_ordinary (he : c.ext = false) :
    c.slot.bytes = UInt8.ofNat c.id :: UInt8.ofNat c.payload.length :: c.payload := by
  have hlen := toNat_ofNat_of_lt (n := c.payload.length) (by have := hs.length_lt; omega)
  simp [AddCall.slot, he, DataTag.bytes, hlen]

/-- The bytes of a tag of the extension kind. -/
theorem slot_bytes_ext (he : c.ext = true) :
    c.slot.bytes = TAG_EXTENSION :: UInt8.ofNat (4 + 1 + c.payload.length) ::
      (leBytes 4 c.id ++ UInt8.ofNat c.payload.length :: c.payload) := by
  have hlen := toNat_ofNat_of_lt (n := 4 + 1 + c.payload.length) (by have := hs.length_lt; omega)
  have htake : (leBytes 4 c.id ++ UInt8.ofNat c.payload.length :: c.payload).take
      (4 + 1 + c.payload.length) = leBytes 4 c.id ++ UInt8.ofNat c.payload.length :: c.payload :=
    List.take_of_length_le (by simp; omega)
  rw [AddCall.slot, if_pos he, DataTag.bytes]
  dsimp only
  rw [hlen, List.append_assoc, List.singleton_append, htake]

variable (hw : c.WellIded) {tagId : ℕ} (hid : TagId tagId) {buf : ℕ → UInt8} {i : ℕ}
  (hbuf : bytesAt buf i c.slot.bytes.length = c.slot.bytes) {packetBufLen : ℕ}
  (hi : i < packetBufLen) (tagBufSize fuel : ℕ)
include hw hid hbuf hi

/-- One step of the walk: a tag is the one that is looked for, or is left behind. -/
theorem getTagLoop_slot :
    getTagLoop buf packetBufLen tagId tagBufSize (fuel + 1) i =
      if c.id = tagId then c.payload.take tagBufSize
      else getTagLoop buf packetBufLen tagId tagBufSize fuel (i + c.slot.bytes.length) := by
  have hlt := hs.length_lt
  have hn := toNat_ofNat_of_lt (n := c.payload.length) (by omega)
  rw [getTagLoop, if_neg (not_not_intro hi)]
  unfold AddCall.WellIded at hw
  cases he : c.ext with
  | false =>
    rw [he, if_neg Bool.false_ne_true] at hw
    rw [slot_bytes_ordinary hs he, bytesAt_cons, bytesAt_cons] at hbuf
    obtain ⟨htag, hlen, hdata⟩ := hbuf
    have hc := toNat_ofNat_of_lt (n := c.id) (by omega)
    have hext : UInt8.ofNat c.id ≠ TAG_EXTENSION := by
      intro h
      exact hw.2.2 (hc.symm.trans (congrArg UInt8.toNat h))
    rw [htag, hlen, hc, hn]
    dsimp only
    split_ifs with h h'
    · rw [← take_bytesAt, hdata]
    · exact absurd h'.1 hext
    · rw [slot_bytes_ordinary hs he]
      rfl
  | true =>
    rw [he, if_pos rfl] at hw
    rw [slot_bytes_ext hs he, bytesAt_cons, bytesAt_cons, bytesAt_append, bytesAt_cons] at hbuf
    obtain ⟨htag, hlen, hextid, hextlen, hdata⟩ := hbuf
    rw [leBytes_length] at hextid hextlen hdata
    have hc : ofLe (bytesAt buf (i + 2) 4) = c.id := by
      rw [hextid, ofLe_leBytes]
      exact Nat.mod_eq_of_lt (lt_of_lt_of_le hw.2 (by decide))
    have hlen5 := toNat_ofNat_of_lt (n := 4 + 1 + c.payload.length) (by omega)
    have hkind : ¬ TAG_EXTENSION.toNat = tagId := fun h => hid.2.1 h.symm
    rw [htag, hlen, hc, hlen5]
    dsimp only
    rw [if_neg hkind]
    by_cases h : c.id = tagId
    · rw [if_pos ⟨rfl, h⟩, if_pos h, hextlen, hn, ← take_bytesAt, hdata]
    · rw [if_neg (fun h' => h h'.2), if_neg h, slot_bytes_ext hs he]
      congr 1
      simp
      omega

end

/-- The walk finds the first tag with the id. -/
theorem getTagLoop_slots {cs : List AddCall} (hw : ∀ c ∈ cs, c.WellIded) (hs : ∀ c ∈ cs, c.Small)
    {tagId : ℕ} (hid : TagId tagId) {buf : ℕ → UInt8} {i : ℕ}
    (hbuf : bytesAt buf i (cs.flatMap fun c => c.slot.bytes).length =
      cs.flatMap fun c => c.slot.bytes) (tagBufSize : ℕ) {fuel : ℕ} (hfuel : cs.length ≤ fuel) :
    getTagLoop buf (i + (cs.flatMap fun c => c.slot.bytes).length) tagId tagBufSize fuel i =
      match cs.find? fun c => c.id = tagId with
      | some c => c.payload.take tagBufSize
      | none => [] := by
  induction cs generalizing i fuel with
  | nil =>
    cases fuel with
    | zero => rfl
    | succ fuel => simp [getTagLoop]
  | cons c cs ih =>
    obtain ⟨k, rfl⟩ : ∃ k, fuel = k + 1 := Nat.exists_eq_succ_of_ne_zero (by simp at hfuel; omega)
    rw [List.flatMap_cons, bytesAt_append] at hbuf
    have hpos : 0 < c.slot.bytes.length := by simp [DataTag.bytes]
    rw [getTagLoop_slot (hs c List.mem_cons_self) (hw c List.mem_cons_self) hid hbuf.1
      (by rw [List.flatMap_cons, List.length_append]; omega)]
    by_cases h : c.id = tagId
    · simp [h]
    · rw [if_neg h, List.find?_cons_of_neg (by simpa using h), List.flatMap_cons,
        List.length_append, ← Nat.add_assoc]
      exact ih (fun d hd => hw d (List.mem_cons_of_mem c hd))
        (fun d hd => hs d (List.mem_cons_of_mem c hd)) hbuf.2 (by simpa using hfuel)

/-! ## From the calls to the packet and back -/

theorem tagsToBuffer_eq {bufSize : ℕ} {l : List DataTag} {buf : List UInt8}
    (hl : ∀ t ∈ l, t.bytes.length = t.len.toNat + 2)
    (h : buf.length + (l.flatMap DataTag.bytes).length ≤ bufSize) :
    tagsToBuffer bufSize l buf = buf ++ l.flatMap DataTag.bytes := by
  induction l generalizing buf with
  | nil => simp [tagsToBuffer]
  | cons t l ih =>
    have ht := hl t List.mem_cons_self
    rw [List.flatMap_cons, List.length_append] at h
    rw [tagsToBuffer, if_neg (by omega), ih (fun u hu => hl u (List.mem_cons_of_mem t hu))
      (by rw [List.length_append]; omega), List.flatMap_cons, List.append_assoc]

/-- The bytes that a list takes in a packet. -/
def TagList.serialised (l : TagList) : List UInt8 := l.flatMap DataTag.bytes

/-- The packet that is made from a list, with buffers of the given sizes. -/
def packetOf (bufSize packetBufSize : ℕ) (h : Header) (l : TagList) : List UInt8 :=
  makeFinderCommandPacket packetBufSize h (tagListToBuffer l bufSize)

/-- No call writes outside its slot, and every id that some call reported success for is read back
from the packet, as long as the list fits, as the bytes of the first such call. -/
def RoundTrips (calls : List AddCall) : Prop :=
  ∃ rs l, addCalls calls [] = some (rs, l) ∧
    ∀ bufSize packetBufSize h behind tagId c tagBufSize, l.serialised.length ≤ bufSize →
      HEADER_SIZE + l.serialised.length ≤ packetBufSize →
      (reported rs).find? (fun c => c.id = tagId) = some c → c.value.bytes.length ≤ tagBufSize →
        getTagData (regionThen (packetOf bufSize packetBufSize h l) behind)
          (packetOf bufSize packetBufSize h l).length tagId tagBufSize = c.value.bytes

theorem slot_bytes_length {c : AddCall} (hs : c.Small) :
    c.slot.bytes.length = c.slot.len.toNat + 2 := by
  have hlt := hs.length_lt
  cases he : c.ext with
  | false =>
    rw [slot_bytes_ordinary hs he, AddCall.slot, if_neg (by simp [he])]
    simp only [List.length_cons]
    rw [toNat_ofNat_of_lt (by omega)]
  | true =>
    rw [slot_bytes_ext hs he, AddCall.slot, if_pos he]
    simp only [List.length_cons, List.length_append, leBytes_length]
    rw [toNat_ofNat_of_lt (by omega)]
    omega

theorem successful_subset {n : ℕ} {cs : List AddCall} {c : AddCall} (h : c ∈ successful n cs) :
    c ∈ cs ∧ c.accepted = true := by
  have hmem := List.mem_of_mem_take h
  exact List.mem_filter.mp hmem

theorem length_le_slots (cs : List AddCall) :
    cs.length ≤ (cs.flatMap fun c => c.slot.bytes).length := by
  induction cs with
  | nil => exact le_rfl
  | cons c cs ih =>
    rw [List.flatMap_cons, List.length_append, List.length_cons, DataTag.bytes, List.length_cons]
    omega

/-- What is read for an id is what the first successful call kept of its data. -/
theorem getTagData_packetOf {cs : List AddCall} (hw : ∀ c ∈ cs, c.WellIded)
    (hs : ∀ c ∈ cs, c.Small) {bufSize packetBufSize : ℕ} {h : Header} {behind : ℕ → UInt8}
    {tagId tagBufSize : ℕ} {c : AddCall}
    (hbuf : (TagList.serialised (cs.map AddCall.slot)).length ≤ bufSize)
    (hpacket : HEADER_SIZE + (TagList.serialised (cs.map AddCall.slot)).length ≤ packetBufSize)
    (hc : cs.find? (fun c => c.id = tagId) = some c) :
    getTagData (regionThen (packetOf bufSize packetBufSize h (cs.map AddCall.slot)) behind)
      (packetOf bufSize packetBufSize h (cs.map AddCall.slot)).length tagId tagBufSize =
        c.payload.take tagBufSize := by
  have hserial : TagList.serialised (cs.map AddCall.slot) = cs.flatMap fun c => c.slot.bytes := by
    rw [TagList.serialised, List.flatMap_map]
  have htags : tagListToBuffer (cs.map AddCall.slot) bufSize =
      cs.flatMap fun c => c.slot.bytes := by
    rw [tagListToBuffer, tagsToBuffer_eq, ← hserial]
    · rfl
    · intro t ht
      obtain ⟨d, hd, rfl⟩ := List.mem_map.mp ht
      exact slot_bytes_length (hs d hd)
    · rw [List.length_nil, Nat.zero_add]
      exact hbuf
  rw [hserial] at hpacket
  let header := h.preamble.toList ++ leBytes 2 h.seqNum.toNat ++ leBytes 2 h.cmd.toNat ++
    leBytes 2 h.result.toNat ++ leBytes 2 PAD_IGNORE_SEQ_NUM
  have hheader : header.length = HEADER_SIZE := by simp [header, HEADER_SIZE]
  have hmake : packetOf bufSize packetBufSize h (cs.map AddCall.slot) =
      header ++ cs.flatMap fun c => c.slot.bytes := by
    rw [packetOf, htags, makeFinderCommandPacket, if_neg (by omega), if_neg (by omega)]
  have hmem := bytesAt_regionThen (header ++ cs.flatMap fun c => c.slot.bytes) behind
  rw [bytesAt_append] at hmem
  have hat := hmem.2
  rw [Nat.zero_add, hheader] at hat
  have hcount := length_le_slots cs
  have htagId : TagId tagId := by
    have hmem := List.mem_of_find?_eq_some hc
    have hfound : c.id = tagId := by simpa using List.find?_some hc
    exact hfound ▸ (hw c hmem).tagId
  rw [hmake, getTagData, List.length_append, hheader]
  rw [getTagLoop_slots hw hs htagId hat tagBufSize (by omega), hc]

/-- A call that keeps less than its data has data of the extension kind that are too long. -/
theorem payload_eq_iff {c : AddCall} (ha : c.accepted = true) :
    c.payload = c.value.bytes ↔ ¬ c.Oversized := by
  obtain ⟨ext, id, value⟩ := c
  cases ext with
  | false => exact iff_of_true rfl fun h => Bool.false_ne_true h.1
  | true =>
    cases value with
    | data d =>
      have hsmall : d.length % 256 ≤ EXT_DATA_TAG_MAX_SIZE := of_decide_eq_true ha
      have hover : AddCall.Oversized ⟨true, id, .data d⟩ ↔ EXT_DATA_TAG_MAX_SIZE < d.length := by
        simp [AddCall.Oversized]
      rw [hover]
      simp only [AddCall.payload, Value.bytes, List.take_eq_self_iff]
      rw [EXT_DATA_TAG_MAX_SIZE] at hsmall ⊢
      omega
    | integer v => exact iff_of_true rfl (by simp [AddCall.Oversized])
    | integers vs => exact iff_of_true rfl (by simp [AddCall.Oversized])
    | string s => exact iff_of_true rfl (by simp [AddCall.Oversized])

theorem payload_length_le_bytes (c : AddCall) : c.payload.length ≤ c.value.bytes.length := by
  obtain ⟨ext, id, value⟩ := c
  cases ext <;> cases value <;> try exact le_rfl
  exact List.length_take_le' _ _

/-- The calls from the empty list on. -/
theorem addCalls_nil {calls : List AddCall} (hin : ∀ c ∈ successful 0 calls, c.InArea) :
    ∃ rs, addCalls calls [] = some (rs, (successful 0 calls).map AddCall.slot) ∧
      reported rs = successful 0 calls :=
  addCalls_eq (l := []) hin

/-- The tags are read back exactly if no array of integers that finds a slot is longer than its data
area, and the first successful call of no id lost the length of its data to a byte. -/
theorem tags_roundTrip_iff {calls : List AddCall} (hw : ∀ c ∈ calls, c.WellIded) :
    RoundTrips calls ↔
      (∀ c ∈ successful 0 calls, c.InArea) ∧
        ∀ id c, (successful 0 calls).find? (fun c => c.id = id) = some c → ¬ c.Oversized := by
  by_cases hin : ∀ c ∈ successful 0 calls, c.InArea
  · rw [and_iff_right hin]
    rcases addCalls_nil hin with ⟨rs, hrun, hrs⟩
    have hws : ∀ c ∈ successful 0 calls, c.WellIded := fun c hc => hw c (successful_subset hc).1
    have haccepted : ∀ c ∈ successful 0 calls, c.accepted = true := fun c hc =>
      (successful_subset hc).2
    have hsmall : ∀ c ∈ successful 0 calls, c.Small := fun c hc =>
      payload_length_le (haccepted c hc) (hin c hc)
    unfold RoundTrips
    rw [hrun]
    generalize successful 0 calls = cs at *
    constructor
    · rintro ⟨rs', l, hrun', hread⟩ id c hc
      obtain ⟨rfl, rfl⟩ := Prod.mk.inj (Option.some.inj hrun')
      have hback := hread _ _ ⟨.replicate 8 0, 0, 0, 0⟩ (fun _ => 0) id c c.value.bytes.length
        le_rfl le_rfl (hrs.symm ▸ hc) le_rfl
      rw [getTagData_packetOf hws hsmall le_rfl le_rfl hc,
        List.take_of_length_le (payload_length_le_bytes c)] at hback
      exact (payload_eq_iff (haccepted c (List.mem_of_find?_eq_some hc))).mp hback
    · intro hfirst
      refine ⟨rs, _, rfl, ?_⟩
      intro bufSize packetBufSize h behind tagId c tagBufSize hbuf hpacket hc hsize
      rw [hrs] at hc
      have hall := (payload_eq_iff (haccepted c (List.mem_of_find?_eq_some hc))).mpr
        (hfirst tagId c hc)
      rw [getTagData_packetOf hws hsmall hbuf hpacket hc, hall, List.take_of_length_le hsize]
  · refine iff_of_false ?_ fun h => hin h.1
    rintro ⟨rs, l, hrun, -⟩
    rw [addCalls_outside (l := []) hin] at hrun
    cases hrun

/-- The reply to a key request: the address it came from, and a key of four numbers. -/
def keyReply : List AddCall :=
  [⟨true, 454, .string (.ofString "192.168.1.2")⟩, ⟨false, 88, .integers [1, 2, 3, 4]⟩]

theorem tags_roundTrip_key : RoundTrips keyReply := by
  have hw : ∀ c ∈ keyReply, c.WellIded := by simp [keyReply, AddCall.WellIded, TAG_EXTENSION]
  have hfits : ∀ c ∈ keyReply, c.InArea ∧ ¬ c.Oversized := by
    intro c hc
    rcases List.mem_pair.mp hc with rfl | rfl
    · refine ⟨trivial, ?_⟩
      rintro ⟨-, d, hd, -⟩
      cases hd
    · exact ⟨by simp [AddCall.InArea], fun h => Bool.false_ne_true h.1⟩
  exact (tags_roundTrip_iff hw).mpr ⟨fun c hc => (hfits c (successful_subset hc).1).1,
    fun id c hc => (hfits c (successful_subset (List.mem_of_find?_eq_some hc)).1).2⟩

/-- Data of 256 bytes. -/
def longData : AddCall := ⟨true, 454, .data (List.replicate 256 7)⟩

/-- They are taken for data of no bytes, with success. -/
theorem tags_long : ¬ RoundTrips [longData] := by
  rintro ⟨rs, l, hrun, hread⟩
  have hslot : addCalls [longData] [] =
      some ([(longData, true)], [⟨202, 5, [198, 1, 0, 0, 0]⟩]) := by decide +kernel
  rw [hslot] at hrun
  obtain ⟨rfl, rfl⟩ := Prod.mk.inj (Option.some.inj hrun)
  have hback := hread 100 100 ⟨.replicate 8 0, 0, 0, 0⟩ (fun _ => 0) 454 longData 256
    (by decide) (by decide) rfl (by decide +kernel)
  exact absurd (congrArg List.length hback) (by decide +kernel)

end EzpFirmware.Bcclient
