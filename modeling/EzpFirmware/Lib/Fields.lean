import EzpFirmware.Lib.CString

/-! # Texts of fields

A separator cuts a text into fields. Fields that are free of it can be joined
and are read back one by one, and every text is the join of its own fields.
-/
namespace EzpFirmware.Lib
namespace CStr

variable {c : UInt8}

theorem fieldsOf_ne_nil (l : List UInt8) (hl : (0 : UInt8) ∉ l) : fieldsOf c l hl ≠ [] := by
  induction l with
  | nil => simp [fieldsOf]
  | cons b bs ih =>
    have hrest := ih fun h => hl (List.mem_cons_of_mem b h)
    unfold fieldsOf
    by_cases hb : b = c
    · simp [hb]
    · cases hf : fieldsOf c bs fun h => hl (List.mem_cons_of_mem b h) with
      | nil => exact absurd hf hrest
      | cons f fs => simp [hb]

/-- The separator starts a new field. -/
theorem fieldsOf_sep (bs : List UInt8) (h : (0 : UInt8) ∉ c :: bs) :
    fieldsOf c (c :: bs) h = empty :: fieldsOf c bs fun hm => h (List.mem_cons_of_mem c hm) := by
  rw [fieldsOf, if_pos rfl]

/-- Any other byte goes to the front of the first field. -/
theorem fieldsOf_other {b : UInt8} (hb : b ≠ c) (bs : List UInt8) (h : (0 : UInt8) ∉ b :: bs) :
    ∃ f fs, (fieldsOf c bs fun hm => h (List.mem_cons_of_mem b hm)) = f :: fs ∧
      ∃ g : CStr, g.val = b :: f.val ∧ fieldsOf c (b :: bs) h = g :: fs := by
  cases hf : fieldsOf c bs fun hm => h (List.mem_cons_of_mem b hm) with
  | nil => exact absurd hf (fieldsOf_ne_nil bs _)
  | cons f fs =>
    refine ⟨f, fs, rfl, ⟨b :: f.val, ?_⟩, rfl, ?_⟩
    · exact fun hm => (List.mem_cons.mp hm).elim (fun h0 => h (h0 ▸ List.mem_cons_self)) f.property
    · rw [fieldsOf, if_neg hb]
      simp only [hf]

theorem length_fields (s : CStr) : (s.fields c).length = s.val.count c + 1 := by
  obtain ⟨l, hl⟩ := s
  change (fieldsOf c l hl).length = l.count c + 1
  induction l with
  | nil => rfl
  | cons b bs ih =>
    have hbs : (0 : UInt8) ∉ bs := fun h => hl (List.mem_cons_of_mem b h)
    by_cases hb : b = c
    · subst hb
      simp [fieldsOf_sep, ih hbs]
    · rcases fieldsOf_other hb bs hl with ⟨f, fs, hf, g, -, hg⟩
      have hlen := ih hbs
      rw [hf] at hlen
      simpa [hg, hb] using hlen

/-- No field holds the separator. -/
theorem not_mem_of_mem_fields {s f : CStr} (hf : f ∈ s.fields c) : c ∉ f.val := by
  obtain ⟨l, hl⟩ := s
  change f ∈ fieldsOf c l hl at hf
  induction l generalizing f with
  | nil =>
    have he : f = empty := by simpa [fieldsOf] using hf
    simp [he, empty]
  | cons b bs ih =>
    have hbs : (0 : UInt8) ∉ bs := fun h => hl (List.mem_cons_of_mem b h)
    by_cases hb : b = c
    · subst hb
      rw [fieldsOf_sep, List.mem_cons] at hf
      rcases hf with rfl | hf
      · simp [empty]
      · exact ih hbs hf
    · rcases fieldsOf_other hb bs hl with ⟨f₀, fs, hf₀, g, hval, hg⟩
      rw [hg, List.mem_cons] at hf
      rcases hf with rfl | hf
      · have hmem : c ∉ f₀.val := ih hbs (by rw [hf₀]; exact List.mem_cons_self)
        rw [hval, List.mem_cons, not_or]
        exact ⟨fun h => hb h.symm, hmem⟩
      · exact ih hbs (by rw [hf₀]; exact List.mem_cons_of_mem _ hf)

/-- No field is longer than the text. -/
theorem len_le_of_mem_fields {s f : CStr} (hf : f ∈ s.fields c) : f.len ≤ s.len := by
  obtain ⟨l, hl⟩ := s
  change f ∈ fieldsOf c l hl at hf
  change f.val.length ≤ l.length
  induction l generalizing f with
  | nil =>
    have he : f = empty := by simpa [fieldsOf] using hf
    simp [he, empty]
  | cons b bs ih =>
    have hbs : (0 : UInt8) ∉ bs := fun h => hl (List.mem_cons_of_mem b h)
    by_cases hb : b = c
    · subst hb
      rw [fieldsOf_sep, List.mem_cons] at hf
      rcases hf with rfl | hf
      · exact Nat.zero_le _
      · exact (ih hbs hf).trans (Nat.le_succ _)
    · rcases fieldsOf_other hb bs hl with ⟨f₀, fs, hf₀, g, hval, hg⟩
      rw [hg, List.mem_cons] at hf
      rcases hf with rfl | hf
      · rw [hval]
        exact Nat.succ_le_succ (ih hbs (by rw [hf₀]; exact List.mem_cons_self))
      · exact (ih hbs (by rw [hf₀]; exact List.mem_cons_of_mem _ hf)).trans (Nat.le_succ _)

/-- A text without the separator is one field. -/
theorem fields_of_not_mem {s : CStr} (h : c ∉ s.val) : s.fields c = [s] := by
  obtain ⟨l, hl⟩ := s
  change fieldsOf c l hl = _
  change c ∉ l at h
  induction l with
  | nil => rfl
  | cons b bs ih =>
    have hbs : (0 : UInt8) ∉ bs := fun h => hl (List.mem_cons_of_mem b h)
    rw [List.mem_cons, not_or] at h
    rcases fieldsOf_other (fun hb => h.1 hb.symm) bs hl with ⟨f, fs, hf, g, hval, hg⟩
    have hone := (ih hbs h.2).symm.trans hf
    obtain ⟨rfl, rfl⟩ : (⟨bs, hbs⟩ : CStr) = f ∧ [] = fs := by simpa using hone
    rw [hg]
    congr 1
    exact Subtype.ext hval

/-- A field in front of a separator is read first. -/
theorem fields_glue (hc : c ≠ 0) {a : CStr} (ha : c ∉ a.val) (b : CStr) :
    (glue c hc a b).fields c = a :: b.fields c := by
  obtain ⟨l, hl⟩ := a
  change c ∉ l at ha
  induction l with
  | nil => exact fieldsOf_sep b.val _
  | cons x xs ih =>
    have hxs : (0 : UInt8) ∉ xs := fun h => hl (List.mem_cons_of_mem x h)
    rw [List.mem_cons, not_or] at ha
    have htail := ih hxs ha.2
    have h0 : (0 : UInt8) ∉ x :: (glue c hc ⟨xs, hxs⟩ b).val := by
      rw [List.mem_cons, not_or]
      exact ⟨fun h => hl (h ▸ List.mem_cons_self), (glue c hc ⟨xs, hxs⟩ b).property⟩
    rcases fieldsOf_other (fun hb => ha.1 hb.symm) _ h0 with ⟨f, fs, hf, g, hval, hg⟩
    change fieldsOf c (x :: (glue c hc ⟨xs, hxs⟩ b).val) h0 = _
    change fieldsOf c (glue c hc ⟨xs, hxs⟩ b).val _ = _ at htail
    rw [htail] at hf
    obtain ⟨rfl, rfl⟩ := List.cons.inj hf
    rw [hg]
    congr 1
    exact Subtype.ext hval

/-- Fields with separators between them. -/
def join (c : UInt8) (hc : c ≠ 0) : List CStr → CStr
  | [] => empty
  | [f] => f
  | f :: g :: fs => glue c hc f (join c hc (g :: fs))

theorem join_cons (hc : c ≠ 0) (f : CStr) {fs : List CStr} (hfs : fs ≠ []) :
    join c hc (f :: fs) = glue c hc f (join c hc fs) := by
  cases fs with
  | nil => exact absurd rfl hfs
  | cons g gs => rfl

/-- A field behind the others. -/
theorem join_concat (hc : c ≠ 0) {fs : List CStr} (hfs : fs ≠ []) (f : CStr) :
    join c hc (fs ++ [f]) = glue c hc (join c hc fs) f := by
  induction fs with
  | nil => exact absurd rfl hfs
  | cons g gs ih =>
    by_cases hgs : gs = []
    · subst hgs
      rfl
    · rw [List.cons_append, join_cons hc g (List.append_ne_nil_of_left_ne_nil hgs _), ih hgs,
        join_cons hc g hgs]
      exact Subtype.ext (by simp [glue])

/-- Joined fields are read back. -/
theorem fields_join (hc : c ≠ 0) {fs : List CStr} (hne : fs ≠ []) (hfs : ∀ f ∈ fs, c ∉ f.val) :
    (join c hc fs).fields c = fs := by
  induction fs with
  | nil => exact absurd rfl hne
  | cons f fs ih =>
    have hf : c ∉ f.val := hfs f List.mem_cons_self
    cases fs with
    | nil => exact fields_of_not_mem hf
    | cons g gs =>
      have hrest : ∀ f' ∈ g :: gs, c ∉ f'.val := fun f' h => hfs f' (List.mem_cons_of_mem f h)
      rw [join_cons hc f (by simp), fields_glue hc hf, ih (by simp) hrest]

theorem glue_fields {b : UInt8} (hc : c ≠ 0) {a g : CStr} (hg : g.val = b :: a.val) (t : CStr) :
    (glue c hc g t).val = b :: (glue c hc a t).val := by
  simp [glue, hg]

/-- Every text is the join of its fields. -/
theorem join_fields (hc : c ≠ 0) (s : CStr) : join c hc (s.fields c) = s := by
  obtain ⟨l, hl⟩ := s
  change join c hc (fieldsOf c l hl) = _
  induction l with
  | nil => rfl
  | cons b bs ih =>
    have hbs : (0 : UInt8) ∉ bs := fun h => hl (List.mem_cons_of_mem b h)
    have htail := ih hbs
    by_cases hb : b = c
    · subst hb
      rw [fieldsOf_sep, join_cons hc _ (fieldsOf_ne_nil bs _), htail]
      rfl
    · rcases fieldsOf_other hb bs hl with ⟨f, fs, hf, g, hval, hg⟩
      rw [hf] at htail
      rw [hg]
      apply Subtype.ext
      cases fs with
      | nil => exact hval.trans (congrArg (b :: ·) (congrArg Subtype.val htail))
      | cons f' fs =>
        rw [join_cons hc _ (by simp), glue_fields hc hval, ← join_cons hc _ (by simp), htail]

theorem glue_assoc (hc : c ≠ 0) (a b t : CStr) :
    glue c hc (glue c hc a b) t = glue c hc a (glue c hc b t) :=
  Subtype.ext (by simp [glue])

theorem fields_glue_join (hc : c ≠ 0) {fs : List CStr} (hne : fs ≠ []) (hfs : ∀ f ∈ fs, c ∉ f.val)
    (t : CStr) : (glue c hc (join c hc fs) t).fields c = fs ++ t.fields c := by
  induction fs with
  | nil => exact absurd rfl hne
  | cons f fs ih =>
    have hf : c ∉ f.val := hfs f List.mem_cons_self
    by_cases hnil : fs = []
    · subst hnil
      exact fields_glue hc hf t
    · have hrest : ∀ f' ∈ fs, c ∉ f'.val := fun f' h => hfs f' (List.mem_cons_of_mem f h)
      rw [join_cons hc f hnil, glue_assoc, fields_glue hc hf, ih hnil hrest, List.cons_append]

/-- The fields of two texts with a separator between them. -/
theorem fields_glue_fields (hc : c ≠ 0) (a b : CStr) :
    (glue c hc a b).fields c = a.fields c ++ b.fields c := by
  have hfields := fields_glue_join hc (fieldsOf_ne_nil a.val a.property)
    (fun f hf => not_mem_of_mem_fields (s := a) hf) b
  change (glue c hc (join c hc (a.fields c)) b).fields c = _ at hfields
  rwa [join_fields] at hfields

/-- The fields of joined texts are those of the texts. -/
theorem fields_join_flatMap (hc : c ≠ 0) {ss : List CStr} (hne : ss ≠ []) :
    (join c hc ss).fields c = ss.flatMap (fields c) := by
  induction ss with
  | nil => exact absurd rfl hne
  | cons s ss ih =>
    by_cases hnil : ss = []
    · subst hnil
      simp [join]
    · rw [join_cons hc s hnil, fields_glue_fields, ih hnil, List.flatMap_cons]

/-- A text without the separator in front goes to the first field. -/
theorem fields_append {a b f : CStr} {fs : List CStr} (hc : c ≠ 0) (ha : c ∉ a.val)
    (hb : b.fields c = f :: fs) : (a.append b).fields c = a.append f :: fs := by
  have hfree : ∀ g ∈ f :: fs, c ∉ g.val := fun g hg => not_mem_of_mem_fields (s := b) (hb ▸ hg)
  have hfront : c ∉ (a.append f).val := by
    intro hm
    rcases List.mem_append.mp hm with hm | hm
    · exact ha hm
    · exact hfree f List.mem_cons_self hm
  have hjoin : join c hc (f :: fs) = b := hb ▸ join_fields hc b
  by_cases hnil : fs = []
  · subst hnil
    have hone : f = b := hjoin
    rw [← hone]
    exact fields_of_not_mem hfront
  · have hglue : a.append b = glue c hc (a.append f) (join c hc fs) := by
      rw [← hjoin, join_cons hc f hnil]
      exact Subtype.ext (List.append_assoc _ _ _).symm
    rw [hglue, fields_glue hc hfront,
      fields_join hc hnil fun g hg => hfree g (List.mem_cons_of_mem f hg)]

end CStr
end EzpFirmware.Lib
