import EzpFirmware.Lib.Fields
import EzpFirmware.Qcloud.UrlCoding
import Mathlib.Data.List.Pairwise

/-! # Query strings

A CGI program reads the values of its fields from the query string. The whole
string is decoded before it is split, so that a value is stored as it was
exactly if the separator is not in it.
-/
namespace EzpFirmware.Qcloud
open Lib UserNvram

def PAIR_KEY_LEN : ℕ := 64

def PAIR_VALUE_LEN : ℕ := 1024

/-- `DELIM_AND`. -/
def AMP : UInt8 := 0x26

def EQUALS : UInt8 := 0x3d

theorem AMP_ne : AMP ≠ 0 := by decide

theorem EQUALS_ne : EQUALS ≠ 0 := by decide

def ERR_INPUT_LEN : ℤ := -986

/-- `key_pair_st`: a key, and the array of its value. -/
structure KeyPair where
  key : CStr
  value : {array : List UInt8 // array.length = PAIR_VALUE_LEN + 1}

/-- `strncpy` to the array of a field. -/
def KeyPair.store (field : KeyPair) (value : CStr) : KeyPair :=
  { field with value := ⟨strncpy field.value.val value.stored PAIR_VALUE_LEN, by
      rw [strncpy_length (by rw [field.value.property]; omega), field.value.property]⟩ }

/-- `strncasecmp` finds no difference in the first `PAIR_KEY_LEN` characters. -/
def KeyPair.Takes (field : KeyPair) (key : CStr) : Prop :=
  sameCaseless (field.key.val.take PAIR_KEY_LEN) (key.val.take PAIR_KEY_LEN)

instance (field : KeyPair) (key : CStr) : Decidable (field.Takes key) :=
  inferInstanceAs (Decidable (_ = true))

/-- The loop over the fields: the first one that takes the key gets the value. -/
def storeField (key value : CStr) : List KeyPair → List KeyPair
  | [] => []
  | field :: fields =>
    if field.key = CStr.empty then field :: fields
    else if field.Takes key then field.store value :: fields
    else field :: storeField key value fields

/-- The tokens that `strtok_r` finds between the delimiters. -/
def tokens (inputString : CStr) : List CStr := (inputString.fields AMP).filter (· ≠ CStr.empty)

/-- One round of `util_parse_query_string`. -/
def parseToken (fields : List KeyPair) (input : CStr) : List KeyPair :=
  match CStr.cut EQUALS input with
  | some (key, value) => storeField key value fields
  | none => fields

/-- `util_parse_query_string`. -/
def utilParseQueryString (inputString : CStr) (fields : List KeyPair) : ℤ × List KeyPair :=
  if inputString = CStr.empty then (ERR_INPUT_LEN, fields)
  else (0, (tokens inputString).foldl parseToken fields)

/-- `util_cgi_parse_input`, on the text of `QUERY_STRING`. -/
def utilCgiParseInput (cgiInput : CStr) (inputFields : List KeyPair) :
    Option (ℤ × List KeyPair) :=
  (utilUrlDecode cgiInput.stored).map fun inputString =>
    (NO_ERROR, (utilParseQueryString (CStr.read inputString) inputFields).2)

/-! ## What is asked for -/

/-- The field table: plain keys that differ also without regard to case. -/
structure PlainKeys (fields : List KeyPair) : Prop where
  ne_empty : ∀ field ∈ fields, field.key ≠ CStr.empty
  plain : ∀ field ∈ fields, ∀ b ∈ field.key.val, unreserved b
  short : ∀ field ∈ fields, field.key.len < PAIR_KEY_LEN
  distinct : fields.Pairwise fun f g => ¬ sameCaseless f.key.val g.key.val

/-- Values for some of the keys of a table. -/
structure Choice (fields : List KeyPair) (chosen : List (CStr × CStr)) : Prop where
  keys : ∀ c ∈ chosen, ∃ field ∈ fields, field.key = c.1
  nodup : (chosen.map Prod.fst).Nodup
  short : ∀ c ∈ chosen, c.2.len < PAIR_VALUE_LEN

/-- The text that `util_url_encode` gives for a value. -/
def encodedValue (value : CStr) : CStr := CStr.read ((utilUrlEncode value.stored).getD [])

/-- The query string with the chosen values. -/
def queryString (chosen : List (CStr × CStr)) : CStr :=
  CStr.join AMP AMP_ne (chosen.map fun c => CStr.glue EQUALS EQUALS_ne c.1 (encodedValue c.2))

/-- The chosen values are in their fields, and the other fields are as they were. -/
def StoresChosen (fields : List KeyPair) (chosen : List (CStr × CStr)) : Prop :=
  ∃ after, utilCgiParseInput (queryString chosen) fields = some (NO_ERROR, after) ∧
    List.Forall₂ (fun field field' => field'.key = field.key ∧
      (∀ value, (field.key, value) ∈ chosen → CStr.read field'.value.val = value) ∧
      ((∀ value, (field.key, value) ∉ chosen) → field'.value = field.value)) fields after

/-! ## One token -/

/-- What a token does to one field of the table. -/
def KeyPair.parse (field : KeyPair) (input : CStr) : KeyPair :=
  match CStr.cut EQUALS input with
  | some (key, value) => if field.Takes key then field.store value else field
  | none => field

@[simp] theorem KeyPair.parse_key (field : KeyPair) (input : CStr) :
    (field.parse input).key = field.key := by
  unfold KeyPair.parse
  split
  · split <;> rfl
  · rfl

/-- A value that fits is read back. -/
theorem KeyPair.read_store (field : KeyPair) {value : CStr} (h : value.len < PAIR_VALUE_LEN) :
    CStr.read (field.store value).value.val = value := by
  have hread : CStr.read value.stored = value := CStr.read_stored value
  rw [KeyPair.store, read_strncpy (by rw [hread]; exact h), hread]

/-- A key that is shorter than the comparison is taken for itself alone, without regard to case. -/
theorem KeyPair.takes_iff {field : KeyPair} (hshort : field.key.len < PAIR_KEY_LEN) (key : CStr) :
    field.Takes key ↔ sameCaseless field.key.val key.val := by
  have hown : field.key.val.take PAIR_KEY_LEN = field.key.val := List.take_of_length_le hshort.le
  unfold KeyPair.Takes sameCaseless
  rw [hown, decide_eq_true_iff, decide_eq_true_iff, List.map_take]
  constructor
  · intro h
    have hlen := congrArg List.length h
    rw [List.length_map, List.length_take, List.length_map] at hlen
    rw [CStr.len] at hshort
    rw [h, List.take_of_length_le (by rw [List.length_map]; omega)]
  · intro h
    have hlen := congrArg List.length h
    rw [List.length_map, List.length_map] at hlen
    rw [CStr.len] at hshort
    rw [h, List.take_of_length_le (by rw [List.length_map]; omega)]

theorem sameCaseless_symm {s t : List UInt8} (h : sameCaseless s t) : sameCaseless t s := by
  unfold sameCaseless at h ⊢
  simpa using (decide_eq_true_iff.mp h).symm

theorem sameCaseless_trans {s t r : List UInt8} (h : sameCaseless s t) (h' : sameCaseless t r) :
    sameCaseless s r := by
  unfold sameCaseless at h h' ⊢
  simpa using (decide_eq_true_iff.mp h).trans (decide_eq_true_iff.mp h')

/-- The fields of a table are treated one by one, as at most one of them takes a key. -/
theorem storeField_eq_map {fields : List KeyPair} (h : PlainKeys fields) (key value : CStr) :
    storeField key value fields =
      fields.map fun field => if field.Takes key then field.store value else field := by
  induction fields with
  | nil => rfl
  | cons field fields ih =>
    have hrest : PlainKeys fields :=
      ⟨fun f hf => h.ne_empty f (List.mem_cons_of_mem _ hf),
        fun f hf => h.plain f (List.mem_cons_of_mem _ hf),
        fun f hf => h.short f (List.mem_cons_of_mem _ hf), (List.pairwise_cons.mp h.distinct).2⟩
    rw [storeField, if_neg (h.ne_empty field List.mem_cons_self), List.map_cons]
    by_cases htakes : field.Takes key
    · rw [if_pos htakes, if_pos htakes]
      have hkey := (KeyPair.takes_iff (h.short field List.mem_cons_self) key).mp htakes
      have hothers : ∀ other ∈ fields,
          (if other.Takes key then other.store value else other) = id other := by
        intro other hmem
        apply if_neg
        intro hother
        have hkey' := (KeyPair.takes_iff (hrest.short other hmem) key).mp hother
        exact (List.pairwise_cons.mp h.distinct).1 other hmem
          (sameCaseless_trans hkey (sameCaseless_symm hkey'))
      rw [List.map_congr_left hothers, List.map_id]
    · rw [if_neg htakes, if_neg htakes, ih hrest]

theorem parseToken_eq_map {fields : List KeyPair} (h : PlainKeys fields) (input : CStr) :
    parseToken fields input = fields.map (·.parse input) := by
  unfold parseToken
  split
  case h_1 key value hcut =>
    rw [storeField_eq_map h]
    apply List.map_congr_left
    intro field _
    rw [KeyPair.parse, hcut]
  case h_2 hcut =>
    have hsame : ∀ field ∈ fields, field.parse input = id field := by
      intro field _
      rw [KeyPair.parse, hcut]
      rfl
    rw [List.map_congr_left hsame, List.map_id]

/-- The keys alone decide whether a table is plain. -/
theorem PlainKeys.congr {fields fields' : List KeyPair} (h : PlainKeys fields)
    (hkeys : fields'.map KeyPair.key = fields.map KeyPair.key) : PlainKeys fields' := by
  have hback : ∀ f ∈ fields', ∃ g ∈ fields, g.key = f.key := by
    intro f hf
    have hmem : f.key ∈ fields.map KeyPair.key := hkeys ▸ List.mem_map_of_mem hf
    exact List.mem_map.mp hmem
  have hpair : (fields.map KeyPair.key).Pairwise fun a b => ¬ sameCaseless a.val b.val :=
    List.pairwise_map.mpr h.distinct
  constructor
  · intro f hf
    obtain ⟨g, hg, heq⟩ := hback f hf
    exact heq ▸ h.ne_empty g hg
  · intro f hf
    obtain ⟨g, hg, heq⟩ := hback f hf
    exact heq ▸ h.plain g hg
  · intro f hf
    obtain ⟨g, hg, heq⟩ := hback f hf
    exact heq ▸ h.short g hg
  · exact List.pairwise_map.mp (hkeys ▸ hpair)

/-- The tokens are parsed for each field of the table on its own. -/
theorem parseTokens_eq_map {fields : List KeyPair} (h : PlainKeys fields) (inputs : List CStr) :
    inputs.foldl parseToken fields = fields.map fun field => inputs.foldl KeyPair.parse field := by
  induction inputs generalizing fields with
  | nil => simp
  | cons input inputs ih =>
    have hnext : PlainKeys (fields.map (·.parse input)) := by
      apply h.congr
      rw [List.map_map]
      apply List.map_congr_left
      intro field _
      exact field.parse_key input
    rw [List.foldl_cons, parseToken_eq_map h, ih hnext, List.map_map]
    rfl

/-! ## The decoded query string -/

/-- A text and what stands behind it are decoded one after the other. -/
theorem urlDecoded_encoded_append (s t : List UInt8) :
    urlDecoded (urlEncoded s ++ t) = s ++ urlDecoded t := by
  induction s with
  | nil => rfl
  | cons c s ih =>
    rw [urlEncoded_cons, List.append_assoc, urlDecoded_urlByte, ih, List.cons_append]

theorem urlEncoded_plain {s : List UInt8} (hs : ∀ b ∈ s, unreserved b) : urlEncoded s = s := by
  induction s with
  | nil => rfl
  | cons c s ih =>
    have hc : urlByte c = [c] := if_pos (hs c List.mem_cons_self)
    rw [urlEncoded_cons, hc, ih fun b hb => hs b (List.mem_cons_of_mem c hb)]
    rfl

theorem encodedValue_eq (value : CStr) : encodedValue value = urlEncodedText value := by
  rw [encodedValue, utilUrlEncode_eq, Option.getD_some, CStr.read_stored]

/-- An assignment as it is decoded. -/
def item (c : CStr × CStr) : CStr := CStr.glue EQUALS EQUALS_ne c.1 c.2

theorem urlDecoded_item {key : CStr} (hkey : ∀ b ∈ key.val, unreserved b) (value : CStr)
    (rest : List UInt8) :
    urlDecoded ((CStr.glue EQUALS EQUALS_ne key (encodedValue value)).val ++ rest) =
      (item (key, value)).val ++ urlDecoded rest := by
  have hequals : EQUALS ≠ PERCENT ∧ EQUALS ≠ PLUS := by decide
  rw [encodedValue_eq]
  change urlDecoded ((key.val ++ EQUALS :: urlEncoded value.val) ++ rest) =
    (key.val ++ EQUALS :: value.val) ++ urlDecoded rest
  conv_lhs => rw [← urlEncoded_plain hkey]
  rw [List.append_assoc, urlDecoded_encoded_append, List.cons_append,
    urlDecoded_plain hequals.1, if_neg hequals.2, urlDecoded_encoded_append]
  simp

/-- The query string is decoded to the assignments with the values as they are. -/
theorem urlDecoded_queryString {chosen : List (CStr × CStr)}
    (hkeys : ∀ c ∈ chosen, ∀ b ∈ c.1.val, unreserved b) :
    urlDecoded (queryString chosen).val = (CStr.join AMP AMP_ne (chosen.map item)).val := by
  have hamp : AMP ≠ PERCENT ∧ AMP ≠ PLUS := by decide
  rw [queryString]
  induction chosen with
  | nil => exact urlDecoded_nil
  | cons c chosen ih =>
    have hc := hkeys c List.mem_cons_self
    have hrest := ih fun d hd => hkeys d (List.mem_cons_of_mem c hd)
    by_cases hnil : chosen = []
    · subst hnil
      have hitem := urlDecoded_item hc c.2 []
      rw [urlDecoded_nil, List.append_nil, List.append_nil] at hitem
      exact hitem
    · have hne {β : Type} (f : CStr × CStr → β) : chosen.map f ≠ [] := by simpa using hnil
      rw [List.map_cons, List.map_cons, CStr.join_cons AMP_ne _ (hne _),
        CStr.join_cons AMP_ne _ (hne _)]
      change urlDecoded (_ ++ AMP :: (CStr.join AMP AMP_ne _).val) = _ ++ AMP :: _
      rw [urlDecoded_item hc, urlDecoded_plain hamp.1, if_neg hamp.2, hrest]

/-- The tokens of the decoded query string. -/
def itemTokens (chosen : List (CStr × CStr)) : List CStr :=
  (chosen.flatMap fun c => (item c).fields AMP).filter (· ≠ CStr.empty)

theorem tokens_items (chosen : List (CStr × CStr)) :
    tokens (CStr.join AMP AMP_ne (chosen.map item)) = itemTokens chosen := by
  by_cases hnil : chosen = []
  · subst hnil
    rfl
  · have hne : chosen.map item ≠ [] := by simpa using hnil
    rw [tokens, CStr.fields_join_flatMap AMP_ne hne, itemTokens, List.flatMap_map]

/-- The program parses the tokens of the assignments. -/
theorem utilCgiParseInput_eq {fields : List KeyPair} (h : PlainKeys fields)
    {chosen : List (CStr × CStr)} (hkeys : ∀ c ∈ chosen, ∀ b ∈ c.1.val, unreserved b) :
    utilCgiParseInput (queryString chosen) fields = some (NO_ERROR,
      fields.map fun field => (itemTokens chosen).foldl KeyPair.parse field) := by
  have hread : CStr.read (urlDecoded (queryString chosen).val ++ [0]) =
      CStr.join AMP AMP_ne (chosen.map item) := by
    rw [urlDecoded_queryString hkeys]
    exact CStr.read_stored _
  rw [utilCgiParseInput, utilUrlDecode_eq, Option.map_some, hread, ← tokens_items,
    ← parseTokens_eq_map h, utilParseQueryString]
  split
  case isTrue hempty =>
    rw [hempty]
    rfl
  case isFalse => rfl

/-! ## Values with the separator -/

theorem plain_ne {b : UInt8} (hb : unreserved b) : b ≠ AMP ∧ b ≠ EQUALS := by
  constructor <;> rintro rfl <;> exact absurd hb (by decide)

/-- The key and the equals sign in front of a value. -/
def assigned (key : CStr) : CStr := CStr.glue EQUALS EQUALS_ne key CStr.empty

theorem item_eq (c : CStr × CStr) : item c = (assigned c.1).append c.2 :=
  Subtype.ext (by simp [item, assigned, CStr.glue, CStr.append, CStr.empty])

theorem assigned_free {key : CStr} (hkey : ∀ b ∈ key.val, unreserved b) :
    AMP ∉ (assigned key).val := by
  intro h
  rcases List.mem_append.mp h with h | h
  · exact (plain_ne (hkey AMP h)).1 rfl
  · exact absurd (List.mem_singleton.mp h) (by decide)

theorem cut_item {c : CStr × CStr} (hkey : ∀ b ∈ c.1.val, unreserved b) :
    CStr.cut EQUALS (item c) = some c :=
  CStr.cut_glue EQUALS_ne (fun h => (plain_ne (hkey EQUALS h)).2 rfl) c.2

theorem item_ne_empty (c : CStr × CStr) : item c ≠ CStr.empty := by
  intro h
  have hval := congrArg Subtype.val h
  simp [item, CStr.glue, CStr.empty] at hval

/-- An assignment is cut at the separators in its value. -/
theorem fields_item {c : CStr × CStr} (hkey : ∀ b ∈ c.1.val, unreserved b) :
    ∃ v vs, c.2.fields AMP = v :: vs ∧ (item c).fields AMP = item (c.1, v) :: vs := by
  cases hfields : c.2.fields AMP with
  | nil => exact absurd hfields (CStr.fieldsOf_ne_nil _ _)
  | cons v vs =>
    refine ⟨v, vs, rfl, ?_⟩
    rw [item_eq, CStr.fields_append AMP_ne (assigned_free hkey) hfields, item_eq (c.1, v)]

/-- A token that no value came whole into. -/
structure Piece (input : CStr) : Prop where
  free : AMP ∉ input.val
  short : ∀ key value, CStr.cut EQUALS input = some (key, value) → value.len < PAIR_VALUE_LEN

theorem piece_of_mem {chosen : List (CStr × CStr)}
    (hkeys : ∀ c ∈ chosen, ∀ b ∈ c.1.val, unreserved b)
    (hshort : ∀ c ∈ chosen, c.2.len < PAIR_VALUE_LEN) {input : CStr}
    (h : input ∈ itemTokens chosen) : Piece input := by
  obtain ⟨c, hc, hmem⟩ := List.mem_flatMap.mp (List.mem_filter.mp h).1
  have hlen := hshort c hc
  refine ⟨CStr.not_mem_of_mem_fields hmem, fun key value hcut => ?_⟩
  obtain ⟨v, vs, hfields, hitem⟩ := fields_item (hkeys c hc)
  rw [hitem] at hmem
  rcases List.mem_cons.mp hmem with rfl | hvs
  · have hcut' : CStr.cut EQUALS (item (c.1, v)) = some (c.1, v) := cut_item (hkeys c hc)
    obtain ⟨rfl, rfl⟩ : c.1 = key ∧ v = value := by simpa using hcut'.symm.trans hcut
    have hv : v.len ≤ c.2.len :=
      CStr.len_le_of_mem_fields (c := AMP) (hfields ▸ List.mem_cons_self)
    omega
  · have hinput : input.len ≤ c.2.len :=
      CStr.len_le_of_mem_fields (c := AMP) (hfields ▸ List.mem_cons_of_mem v hvs)
    have hsplit := CStr.cut_length hcut
    omega

theorem cut_free {input key value : CStr} (h : CStr.cut EQUALS input = some (key, value))
    (hfree : AMP ∉ input.val) : AMP ∉ value.val := by
  unfold CStr.cut at h
  split at h
  · cases h
    exact fun hm => hfree (List.dropWhile_subset _ (List.mem_of_mem_tail hm))
  · cases h

/-- A field that a piece was stored to holds no separator any more. -/
theorem foldl_parse_free {inputs : List CStr} (hpieces : ∀ input ∈ inputs, Piece input)
    {field : KeyPair} (h : AMP ∉ (CStr.read field.value.val).val ∨
      ∃ input ∈ inputs, ∃ key value, CStr.cut EQUALS input = some (key, value) ∧ field.Takes key) :
    AMP ∉ (CStr.read (inputs.foldl KeyPair.parse field).value.val).val := by
  induction inputs generalizing field with
  | nil =>
    rcases h with h | ⟨input, hmem, -⟩
    · exact h
    · cases hmem
  | cons input inputs ih =>
    have hpiece := hpieces input List.mem_cons_self
    rw [List.foldl_cons]
    apply ih fun other hmem => hpieces other (List.mem_cons_of_mem _ hmem)
    by_cases hstore : ∃ key value, CStr.cut EQUALS input = some (key, value) ∧ field.Takes key
    · obtain ⟨key, value, hcut, htakes⟩ := hstore
      left
      rw [KeyPair.parse, hcut]
      dsimp only
      rw [if_pos htakes, field.read_store (hpiece.short key value hcut)]
      exact cut_free hcut hpiece.free
    · have hkept : field.parse input = field := by
        unfold KeyPair.parse
        split
        case h_1 key value hcut => exact if_neg fun htakes => hstore ⟨key, value, hcut, htakes⟩
        case h_2 => rfl
      rw [hkept]
      rcases h with h | ⟨other, hmem, key, value, hcut, htakes⟩
      · exact .inl h
      · rcases List.mem_cons.mp hmem with rfl | hmem
        · exact absurd ⟨key, value, hcut, htakes⟩ hstore
        · exact .inr ⟨other, hmem, key, value, hcut, htakes⟩

section
variable {fields : List KeyPair} {chosen : List (CStr × CStr)}

theorem Choice.plain (h : Choice fields chosen) (hfields : PlainKeys fields) :
    ∀ c ∈ chosen, ∀ b ∈ c.1.val, unreserved b := by
  intro c hc
  obtain ⟨field, hmem, heq⟩ := h.keys c hc
  exact heq ▸ hfields.plain field hmem

/-- A chosen key is taken by its own field alone. -/
theorem Choice.takes_iff (h : Choice fields chosen) (hfields : PlainKeys fields)
    {field : KeyPair} (hmem : field ∈ fields) {c : CStr × CStr} (hc : c ∈ chosen) :
    field.Takes c.1 ↔ field.key = c.1 := by
  obtain ⟨own, hown, heq⟩ := h.keys c hc
  rw [KeyPair.takes_iff (hfields.short field hmem), ← heq]
  constructor
  · intro hsame
    by_contra hne
    have hsymm : Std.Symm fun f g : KeyPair => ¬ sameCaseless f.key.val g.key.val :=
      ⟨fun f g hfg hgf => hfg (sameCaseless_symm hgf)⟩
    exact hfields.distinct.forall hmem hown (fun he => hne (congrArg KeyPair.key he)) hsame
  · intro hkey
    rw [hkey, sameCaseless]
    exact decide_eq_true rfl

/-- A value with the separator is not stored. -/
theorem free_of_storesChosen (hfields : PlainKeys fields) (hchosen : Choice fields chosen)
    (h : StoresChosen fields chosen) : ∀ c ∈ chosen, AMP ∉ c.2.val := by
  intro c hc
  have hplain := hchosen.plain hfields
  obtain ⟨after, hrun, hall⟩ := h
  rw [utilCgiParseInput_eq hfields hplain] at hrun
  obtain rfl := (Prod.mk.inj (Option.some.inj hrun)).2
  obtain ⟨field, hmem, heq⟩ := hchosen.keys c hc
  have hfield := List.forall₂_map_right_iff.mp hall
  have hown := List.forall₂_same.mp hfield field hmem
  have hread := hown.2.1 c.2 (by rw [heq]; exact hc)
  obtain ⟨v, vs, -, hitem⟩ := fields_item (hplain c hc)
  have htoken : item (c.1, v) ∈ itemTokens chosen := by
    apply List.mem_filter.mpr
    refine ⟨List.mem_flatMap.mpr ⟨c, hc, hitem ▸ List.mem_cons_self⟩, ?_⟩
    simpa using item_ne_empty (c.1, v)
  have htakes : field.Takes c.1 := (hchosen.takes_iff hfields hmem hc).mpr heq
  have hfree := foldl_parse_free (fun input => piece_of_mem hplain hchosen.short)
    (.inr ⟨item (c.1, v), htoken, c.1, v, cut_item (hplain c hc), htakes⟩)
  rwa [hread] at hfree

/-- The token of a value without the separator. -/
theorem itemTokens_free (hplain : ∀ c ∈ chosen, ∀ b ∈ c.1.val, unreserved b)
    (hfree : ∀ c ∈ chosen, AMP ∉ c.2.val) : itemTokens chosen = chosen.map item := by
  have hitem : ∀ c ∈ chosen, (item c).fields AMP = [item c] := by
    intro c hc
    apply CStr.fields_of_not_mem
    rw [item_eq]
    intro hm
    rcases List.mem_append.mp hm with hm | hm
    · exact assigned_free (hplain c hc) hm
    · exact hfree c hc hm
  have hne : ∀ input ∈ chosen.map item, decide (input ≠ CStr.empty) = true := by
    intro input hmem
    obtain ⟨c, -, rfl⟩ := List.mem_map.mp hmem
    simpa using item_ne_empty c
  rw [itemTokens, List.flatMap_congr hitem, ← List.map_eq_flatMap, List.filter_eq_self.mpr hne]

/-- What the assignments make of one field. -/
theorem foldl_items {chosen : List (CStr × CStr)} {field : KeyPair}
    (hplain : ∀ c ∈ chosen, ∀ b ∈ c.1.val, unreserved b)
    (hshort : ∀ c ∈ chosen, c.2.len < PAIR_VALUE_LEN) (hnodup : (chosen.map Prod.fst).Nodup)
    (htakes : ∀ c ∈ chosen, field.Takes c.1 ↔ field.key = c.1) :
    ((chosen.map item).foldl KeyPair.parse field).key = field.key ∧
      (∀ value, (field.key, value) ∈ chosen →
        CStr.read ((chosen.map item).foldl KeyPair.parse field).value.val = value) ∧
      ((∀ value, (field.key, value) ∉ chosen) →
        ((chosen.map item).foldl KeyPair.parse field).value = field.value) := by
  induction chosen generalizing field with
  | nil => simp
  | cons c chosen ih =>
    have hrest := fun {d : CStr × CStr} (hd : d ∈ chosen) => List.mem_cons_of_mem c hd
    rw [List.map_cons, List.nodup_cons] at hnodup
    have hparse : field.parse (item c) = if field.Takes c.1 then field.store c.2 else field := by
      rw [KeyPair.parse, cut_item (hplain c List.mem_cons_self)]
    obtain ⟨hkey, hin, hout⟩ := @ih (field.parse (item c)) (fun d hd => hplain d (hrest hd))
      (fun d hd => hshort d (hrest hd)) hnodup.2 (by
        intro d hd
        have hd := htakes d (hrest hd)
        rwa [KeyPair.Takes, KeyPair.parse_key])
    rw [KeyPair.parse_key] at hkey hin hout
    rw [List.map_cons, List.foldl_cons]
    refine ⟨hkey, fun value hvalue => ?_, fun hnone => ?_⟩
    · rcases List.mem_cons.mp hvalue with rfl | hmem
      · -- the other assignments are for other keys
        have hothers : ∀ other, (field.key, other) ∉ chosen :=
          fun other hm => hnodup.1 (List.mem_map.mpr ⟨_, hm, rfl⟩)
        rw [hout hothers, hparse, if_pos ((htakes _ List.mem_cons_self).mpr rfl),
          field.read_store (hshort _ List.mem_cons_self)]
      · exact hin value hmem
    · have hne : field.key ≠ c.1 := fun he => hnone c.2 (he ▸ List.mem_cons_self)
      have hskip : field.parse (item c) = field := by
        rw [hparse, if_neg fun ht => hne ((htakes c List.mem_cons_self).mp ht)]
      rw [hout fun value hm => hnone value (hrest hm), hskip]

/-- The chosen values are stored exactly if the separator is in none of them. -/
theorem utilCgiParseInput_stores_iff (fields : List KeyPair) (chosen : List (CStr × CStr))
    (hfields : PlainKeys fields) (hchosen : Choice fields chosen) :
    StoresChosen fields chosen ↔ ∀ c ∈ chosen, AMP ∉ c.2.val := by
  have hplain := hchosen.plain hfields
  constructor
  · exact free_of_storesChosen hfields hchosen
  · intro hfree
    refine ⟨_, utilCgiParseInput_eq hfields hplain, ?_⟩
    rw [itemTokens_free hplain hfree]
    apply List.forall₂_map_right_iff.mpr
    apply List.forall₂_same.mpr
    intro field hmem
    exact foldl_items hplain hchosen.short hchosen.nodup
      fun c hc => hchosen.takes_iff hfields hmem hc

end

/-! ## A table of two fields -/

/-- A field whose array is zeroed. -/
def emptyField (key : CStr) : KeyPair :=
  ⟨key, List.replicate (PAIR_VALUE_LEN + 1) 0, List.length_replicate⟩

/-- The fields `user` and `code`. -/
def loginFields : List KeyPair := [emptyField (.ofString "user"), emptyField (.ofString "code")]

theorem plainKeys_loginFields : PlainKeys loginFields where
  ne_empty := by simp [loginFields, emptyField]; decide
  plain := by simp [loginFields, emptyField]; decide +kernel
  short := by simp [loginFields, emptyField]; decide
  distinct := by simp [loginFields, emptyField]; decide

theorem stores_loginFields :
    StoresChosen loginFields
      [(.ofString "code", .ofString "a=%7 +"), (.ofString "user", .ofString "x")] :=
  (utilCgiParseInput_stores_iff loginFields _ plainKeys_loginFields
    ⟨by simp [loginFields, emptyField], by decide, by decide⟩).mpr (by decide)

/-- A value with the separator assigns to another field. -/
theorem value_split : ¬ StoresChosen loginFields [(.ofString "user", .ofString "x&code=1")] := by
  intro h
  have hfree := free_of_storesChosen plainKeys_loginFields
    ⟨by simp [loginFields, emptyField], by decide, by decide⟩ h _ List.mem_cons_self
  exact absurd hfree (by decide)

end EzpFirmware.Qcloud
