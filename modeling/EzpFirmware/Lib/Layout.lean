import Mathlib.Data.List.DropRight
import Mathlib.Algebra.Ring.Nat
import EzpFirmware.Lib.Fields

/-! # Arrays laid one behind another

A struct of arrays is the bytes of its arrays in a row. A copy to the start of
one of them that ends inside it, or inside the next, touches no other.
-/
namespace EzpFirmware.Lib

section
variable {ι α : Type*}

/-- The arrays of a list, one behind the other. -/
def layout (is : List ι) (a : ι → List α) : List α := is.flatMap a

theorem length_layout (is : List ι) (a : ι → List α) :
    (layout is a).length = (is.map fun i => (a i).length).sum :=
  List.length_flatMap

theorem layout_congr {is : List ι} {a b : ι → List α} (h : ∀ i ∈ is, a i = b i) :
    layout is a = layout is b :=
  List.flatMap_congr h

variable [DecidableEq ι]

/-- The names in front of one. -/
def before (is : List ι) (i : ι) : List ι := is.takeWhile fun j => j ≠ i

/-- The names behind one. -/
def behind (is : List ι) (i : ι) : List ι := (is.dropWhile fun j => j ≠ i).tail

theorem before_cons_behind {is : List ι} {i : ι} (h : i ∈ is) :
    before is i ++ i :: behind is i = is := by
  induction is with
  | nil => cases h
  | cons j is ih =>
    by_cases hj : j = i
    · simp [before, behind, hj]
    · have hi : i ∈ is := (List.mem_cons.mp h).resolve_left fun he => hj he.symm
      simpa [before, behind, hj] using ih hi

theorem not_mem_before (is : List ι) (i : ι) : i ∉ before is i := by
  intro h
  simpa using List.mem_takeWhile_imp h

theorem not_mem_behind {is : List ι} {i : ι} (hn : is.Nodup) (h : i ∈ is) : i ∉ behind is i := by
  rw [← before_cons_behind h] at hn
  exact (List.nodup_cons.mp (List.nodup_append.mp hn).2.1).1

theorem layout_split {is : List ι} {i : ι} (h : i ∈ is) (a : ι → List α) :
    layout is a = layout (before is i) a ++ (a i ++ layout (behind is i) a) := by
  conv_lhs => rw [← before_cons_behind h]
  simp [layout]

/-- Another array in the place of one. -/
theorem layout_update {is : List ι} {i : ι} (hn : is.Nodup) (h : i ∈ is) (a : ι → List α)
    (x : List α) : layout is (Function.update a i x) =
      layout (before is i) a ++ (x ++ layout (behind is i) a) := by
  rw [layout_split h, Function.update_self]
  congr 1
  · apply layout_congr
    intro j hj
    exact Function.update_of_ne (ne_of_mem_of_not_mem hj (not_mem_before is i)) _ _
  · congr 1
    apply layout_congr
    intro j hj
    exact Function.update_of_ne (ne_of_mem_of_not_mem hj (not_mem_behind hn h)) _ _

end

theorem strncpy_append_left {dst : List UInt8} (src r : List UInt8) {n : ℕ}
    (h : n ≤ dst.length) : strncpy (dst ++ r) src n = strncpy dst src n ++ r := by
  simp only [strncpy, List.drop_append_of_le_length h, List.append_assoc]

/-- A string that fits the first array: zeros go on into the second. -/
theorem strncpy_append_over {x src : List UInt8} (y : List UInt8) {n : ℕ} (hx : x.length ≤ n)
    (hs : (CStr.read src).len ≤ x.length) : strncpy (x ++ y) src n =
      strncpy x src x.length ++ (List.replicate (n - x.length) 0 ++ y.drop (n - x.length)) := by
  have hn : (CStr.read src).val.take n = (CStr.read src).val := List.take_of_length_le (hs.trans hx)
  have hlen : (CStr.read src).val.take x.length = (CStr.read src).val := List.take_of_length_le hs
  have hsplit : n - (CStr.read src).val.length =
      (x.length - (CStr.read src).val.length) + (n - x.length) := by
    change (CStr.read src).val.length ≤ x.length at hs
    omega
  have hdrop : (x ++ y).drop n = y.drop (n - x.length) := by
    rw [List.drop_append, List.drop_eq_nil_of_le hx, List.nil_append]
  simp only [strncpy, hn, hlen, hdrop, hsplit, List.replicate_add, List.drop_length,
    List.append_nil, List.append_assoc]

namespace CStr
variable {c : UInt8}

/-- A cut leaves what was in front of the separator and behind it. -/
theorem eq_glue_of_cut (hc : c ≠ 0) {s a b : CStr} (h : cut c s = some (a, b)) :
    s = glue c hc a b := by
  unfold cut at h
  split at h
  case isTrue hmem =>
    cases h
    have hne : s.val.dropWhile (· != c) ≠ [] := by
      intro he
      rw [List.dropWhile_eq_nil_iff] at he
      simpa using he c hmem
    have hhead : (s.val.dropWhile (· != c)).head hne = c := by
      simpa using List.head_dropWhile_not (· != c) hne
    have hcons : c :: (s.val.dropWhile (· != c)).tail = s.val.dropWhile (· != c) := by
      conv_rhs => rw [← List.cons_head_tail hne, hhead]
    apply Subtype.ext
    change s.val = s.val.takeWhile (· != c) ++ c :: (s.val.dropWhile (· != c)).tail
    rw [hcons, List.takeWhile_append_dropWhile]
  case isFalse => simp at h

/-- All fields but the last, each with its separator. -/
def heads (c : UInt8) (fs : List CStr) : List UInt8 := fs.flatMap fun f => f.val ++ [c]

theorem join_concat_val (hc : c ≠ 0) (fs : List CStr) (l : CStr) :
    (join c hc (fs ++ [l])).val = heads c fs ++ l.val := by
  induction fs with
  | nil => rfl
  | cons f fs ih =>
    rw [List.cons_append, join_cons hc f (by simp)]
    simp [glue, heads, ih]

/-- Fields without the separator have one for each. -/
theorem count_heads {fs : List CStr} (h : ∀ f ∈ fs, c ∉ f.val) :
    (heads c fs).count c = fs.length := by
  induction fs with
  | nil => rfl
  | cons f fs ih =>
    have hf : f.val.count c = 0 := List.count_eq_zero.mpr (h f List.mem_cons_self)
    have htail := ih fun g hg => h g (List.mem_cons_of_mem f hg)
    have hcons : heads c (f :: fs) = f.val ++ c :: heads c fs := by simp [heads]
    rw [hcons, List.count_append, List.count_cons_self, hf, htail, List.length_cons, Nat.zero_add]

/-- The fields with a separator behind each. -/
def lines (c : UInt8) (hc : c ≠ 0) (fs : List CStr) : CStr :=
  ⟨heads c fs, by
    intro h
    obtain ⟨f, -, hf⟩ := List.mem_flatMap.mp h
    rcases List.mem_append.mp hf with hf | hf
    · exact f.property hf
    · exact hc (List.mem_singleton.mp hf).symm⟩

theorem lines_cons_len (hc : c ≠ 0) (f : CStr) (fs : List CStr) :
    (lines c hc (f :: fs)).len = f.len + 1 + (lines c hc fs).len := by
  simp only [lines, len, heads, List.flatMap_cons, List.length_append, List.length_singleton]

theorem lines_len_sum (hc : c ≠ 0) (fs : List CStr) :
    (lines c hc fs).len = (fs.map fun f => f.len + 1).sum := by
  simp [lines, heads, len, List.length_flatMap]

/-- The lines are the join and a last separator. -/
theorem lines_eq (hc : c ≠ 0) {fs : List CStr} (hfs : fs ≠ []) :
    lines c hc fs = glue c hc (join c hc fs) empty := by
  rw [← List.dropLast_append_getLast hfs]
  apply Subtype.ext
  simp [lines, glue, join_concat_val, heads, empty]

theorem lines_len (hc : c ≠ 0) {fs : List CStr} (hfs : fs ≠ []) :
    (lines c hc fs).len = (join c hc fs).len + 1 := by
  rw [lines_eq hc hfs, glue_len]
  rfl

theorem join_len (hc : c ≠ 0) {fs : List CStr} (hfs : fs ≠ []) :
    (join c hc fs).len + 1 = (fs.map fun f => f.len + 1).sum := by
  rw [← lines_len hc hfs, lines_len_sum]

theorem chop_lines (hc : c ≠ 0) {fs : List CStr} (hfs : fs ≠ []) :
    (lines c hc fs).chop c = join c hc fs := by
  have hlast : (glue c hc (join c hc fs) empty).val.getLast? = some c := by simp [glue, empty]
  rw [lines_eq hc hfs, chop, if_pos hlast, glue_len]
  apply Subtype.ext
  simp [take, glue, empty, len]

/-- Fields that are some of the others make no longer lines. -/
theorem lines_len_le (hc : c ≠ 0) {fs gs : List CStr} (h : fs.Sublist gs) :
    (lines c hc fs).len ≤ (lines c hc gs).len := by
  induction h with
  | slnil => exact le_rfl
  | cons a _ ih =>
    rw [lines_cons_len]
    omega
  | cons_cons a _ ih =>
    rw [lines_cons_len, lines_cons_len]
    omega

/-- Two groups of fields are joined with a separator between them. -/
theorem join_append (hc : c ≠ 0) {fs gs : List CStr} (hfs : fs ≠ []) (hgs : gs ≠ []) :
    join c hc (fs ++ gs) = glue c hc (join c hc fs) (join c hc gs) := by
  induction fs with
  | nil => exact absurd rfl hfs
  | cons f fs ih =>
    by_cases hrest : fs = []
    · subst hrest
      exact join_cons hc f hgs
    · rw [List.cons_append, join_cons hc f (List.append_ne_nil_of_left_ne_nil hrest gs), ih hrest,
        join_cons hc f hrest]
      exact Subtype.ext (by simp [glue])

/-- What is put together with a separator has the fields of both. -/
theorem fields_glue_append (hc : c ≠ 0) (a b : CStr) :
    (glue c hc a b).fields c = a.fields c ++ b.fields c := by
  have hne (s : CStr) : s.fields c ≠ [] := fieldsOf_ne_nil _ _
  have hglue : glue c hc a b = join c hc (a.fields c ++ b.fields c) := by
    rw [join_append hc (hne a) (hne b), join_fields, join_fields]
  rw [hglue]
  apply fields_join hc (List.append_ne_nil_of_left_ne_nil (hne a) _)
  intro f hf
  rcases List.mem_append.mp hf with hf | hf
  · exact not_mem_of_mem_fields hf
  · exact not_mem_of_mem_fields hf

theorem lines_append (hc : c ≠ 0) (fs gs : List CStr) :
    lines c hc (fs ++ gs) = (lines c hc fs).append (lines c hc gs) :=
  Subtype.ext List.flatMap_append

/-- In front of a text, lines are fields. -/
theorem fields_lines_append (hc : c ≠ 0) {fs : List CStr} (hfree : ∀ f ∈ fs, c ∉ f.val) (t : CStr) :
    ((lines c hc fs).append t).fields c = fs ++ t.fields c := by
  induction fs with
  | nil =>
    have hnil : (lines c hc []).append t = t := Subtype.ext rfl
    rw [hnil, List.nil_append]
  | cons f fs ih =>
    have hglue : (lines c hc (f :: fs)).append t = glue c hc f ((lines c hc fs).append t) :=
      Subtype.ext (by simp [lines, heads, append, glue])
    rw [hglue, fields_glue_append, fields_of_not_mem (hfree f List.mem_cons_self),
      ih fun g hg => hfree g (List.mem_cons_of_mem f hg)]
    rfl

/-- Only one empty field, or none, leaves no text. -/
theorem join_eq_empty_iff (hc : c ≠ 0) {fs : List CStr} :
    join c hc fs = empty ↔ fs = [] ∨ fs = [empty] := by
  constructor
  · intro h
    match fs with
    | [] => exact .inl rfl
    | [f] => exact .inr (congrArg (fun a => [a]) h)
    | f :: g :: fs =>
      have hlen := congrArg len h
      rw [join_cons hc f (by simp), glue_len] at hlen
      exact absurd hlen (by simp)
  · rintro (rfl | rfl) <;> rfl

/-- Every byte of a join is a separator or a byte of a field. -/
theorem mem_join {hc : c ≠ 0} {fs : List CStr} {b : UInt8} (h : b ∈ (join c hc fs).val) :
    b = c ∨ ∃ f ∈ fs, b ∈ f.val := by
  induction fs with
  | nil => simp [join, empty] at h
  | cons f fs ih =>
    by_cases hfs : fs = []
    · subst hfs
      exact Or.inr ⟨f, List.mem_cons_self, h⟩
    · rw [join_cons hc f hfs] at h
      simp only [glue, List.mem_append, List.mem_cons] at h
      rcases h with h | h | h
      · exact Or.inr ⟨f, List.mem_cons_self, h⟩
      · exact Or.inl h
      · rcases ih h with h | ⟨g, hg, hb⟩
        · exact Or.inl h
        · exact Or.inr ⟨g, List.mem_cons_of_mem f hg, hb⟩

/-- The bytes of a field are in the join. -/
theorem mem_join_of_mem {hc : c ≠ 0} {fs : List CStr} {f : CStr} (hf : f ∈ fs) {b : UInt8}
    (hb : b ∈ f.val) : b ∈ (join c hc fs).val := by
  induction fs with
  | nil => cases hf
  | cons g fs ih =>
    by_cases hfs : fs = []
    · subst hfs
      rw [List.mem_singleton] at hf
      exact hf ▸ hb
    · rw [join_cons hc g hfs]
      simp only [glue, List.mem_append, List.mem_cons]
      rcases List.mem_cons.mp hf with rfl | hf
      · exact Or.inl hb
      · exact Or.inr (Or.inr (ih hf))

/-- A join has a separator in front of every field but the first. -/
theorem le_count_join (hc : c ≠ 0) (fs : List CStr) :
    fs.length ≤ (join c hc fs).val.count c + 1 := by
  induction fs with
  | nil => exact Nat.zero_le _
  | cons f fs ih =>
    by_cases hfs : fs = []
    · simp [hfs]
    · rw [join_cons hc f hfs]
      simp only [glue, List.count_append, List.count_cons_self, List.length_cons]
      omega

/-! ### Numbered fields -/

section
variable {f g : ℕ → CStr} {n k : ℕ}

theorem join_range_succ (hc : c ≠ 0) (f : ℕ → CStr) (hn : 0 < n) :
    join c hc ((List.range (n + 1)).map f) = glue c hc (join c hc ((List.range n).map f)) (f n) := by
  have hne : (List.range n).map f ≠ [] := by
    rw [ne_eq, List.map_eq_nil_iff, List.range_eq_nil]
    omega
  rw [List.range_succ, List.map_append, List.map_singleton, join_concat hc hne]

theorem join_range_len (hc : c ≠ 0) (f : ℕ → CStr) (hn : 0 < n) :
    (join c hc ((List.range n).map f)).len + 1 = ((List.range n).map fun i => (f i).len + 1).sum := by
  have hne : (List.range n).map f ≠ [] := by
    rw [ne_eq, List.map_eq_nil_iff, List.range_eq_nil]
    omega
  rw [join_len hc hne, List.map_map]
  rfl

theorem join_range_len_le (hc : c ≠ 0) (h : ∀ i < n, (f i).len ≤ (g i).len) :
    (join c hc ((List.range n).map f)).len ≤ (join c hc ((List.range n).map g)).len := by
  induction n with
  | zero => exact le_rfl
  | succ n ih =>
    have hlast := h n (Nat.lt_succ_self n)
    rcases Nat.eq_zero_or_pos n with rfl | hn
    · exact hlast
    · have hle := ih fun i hi => h i (Nat.lt_succ_of_lt hi)
      rw [join_range_succ hc f hn, join_range_succ hc g hn, glue_len, glue_len]
      omega

/-- Fields that are nowhere longer are the same if their joins are. -/
theorem join_range_inj (hc : c ≠ 0) (h : ∀ i < n, (f i).len ≤ (g i).len)
    (heq : join c hc ((List.range n).map f) = join c hc ((List.range n).map g)) :
    ∀ i < n, f i = g i := by
  induction n with
  | zero => exact fun i hi => absurd hi (Nat.not_lt_zero i)
  | succ n ih =>
    have hbefore := fun i (hi : i < n) => h i (Nat.lt_succ_of_lt hi)
    rcases Nat.eq_zero_or_pos n with rfl | hn
    · intro i hi
      obtain rfl : i = 0 := by omega
      exact heq
    · rw [join_range_succ hc f hn, join_range_succ hc g hn] at heq
      have hlast := h n (Nat.lt_succ_self n)
      have hle := join_range_len_le hc hbefore
      have hlen := congrArg len heq
      rw [glue_len, glue_len] at hlen
      obtain ⟨hfront, hrest⟩ := List.append_inj (congrArg Subtype.val heq)
        (show (join c hc ((List.range n).map f)).len = (join c hc ((List.range n).map g)).len by omega)
      intro i hi
      rcases Nat.lt_succ_iff_lt_or_eq.mp hi with hi | rfl
      · exact ih hbefore (Subtype.ext hfront) i hi
      · exact Subtype.ext (List.cons.inj hrest).2

/-- A text that was cut before something came behind it is cut at the same place. -/
theorem take_glue_take (hc : c ≠ 0) (t w : CStr) :
    (glue c hc (t.take k) w).take k = (glue c hc t w).take k := by
  apply Subtype.ext
  change (t.val.take k ++ c :: w.val).take k = (t.val ++ c :: w.val).take k
  rcases Nat.le_total k t.val.length with hle | hle
  · rw [List.take_append_of_le_length (by rw [List.length_take]; omega),
      List.take_append_of_le_length hle, List.take_take, Nat.min_self]
  · rw [List.take_of_length_le hle]

end

end CStr
end EzpFirmware.Lib
