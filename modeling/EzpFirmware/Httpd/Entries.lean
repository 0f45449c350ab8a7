import EzpFirmware.Httpd.Pieces

/-! # Entries of a table

The entries of a table point to strings that end in front of a position. What is
behind it may change without a difference to what is found.
-/
namespace EzpFirmware.Httpd
open Lib

/-- The string at a pointer ends in front of a position. -/
structure Below (m : List UInt8) (b : Buffer) (q : ℕ) (a : Ptr) : Prop where
  buf : a.buf = b
  zero : (0 : UInt8) ∈ (m.take q).drop a.pos

section
variable {L : Libc} {b : Buffer} {c c' : Cgi} {m m' : List UInt8} {q q' : ℕ} {a : Ptr}

theorem Below.text (h : Below (c.mem b) b q a) :
    c.text a = CStr.read (((c.mem b).take q).drop a.pos) := by
  have hle : a.pos ≤ ((c.mem b).take q).length := by
    by_contra hlt
    have hzero := h.zero
    rw [List.drop_eq_nil_of_le (by omega)] at hzero
    cases hzero
  have hsplit : (c.mem b).drop a.pos = ((c.mem b).take q).drop a.pos ++ (c.mem b).drop q := by
    rw [← List.drop_append_of_le_length hle, List.take_append_drop]
  rw [Cgi.text, h.buf, hsplit, CStr.read_append_of_mem h.zero]

theorem Below.congr (h : Below m b q a) (hm : m'.take q = m.take q) : Below m' b q a :=
  ⟨h.buf, by rw [hm]; exact h.zero⟩

theorem Below.mono (h : Below m b q a) (hq : q ≤ q') : Below m b q' a := by
  refine ⟨h.buf, ?_⟩
  have hlead : m.take q <+: m.take q' := List.take_prefix_take_left hq
  exact (hlead.drop a.pos).subset h.zero

/-- The entries of a table end in front of a position. -/
def Sealed (m : List UInt8) (b : Buffer) (q : ℕ) (es : List Entry) : Prop :=
  ∀ e ∈ es, Below m b q e.key ∧ Below m b q e.data

theorem Sealed.congr {es : List Entry} (h : Sealed m b q es) (hm : m'.take q = m.take q) :
    Sealed m' b q es :=
  fun e he => ⟨(h e he).1.congr hm, (h e he).2.congr hm⟩

theorem Sealed.mono {es : List Entry} (h : Sealed m b q es) (hq : q ≤ q') : Sealed m b q' es :=
  fun e he => ⟨(h e he).1.mono hq, (h e he).2.mono hq⟩

/-- Other memory from there on is not seen. -/
theorem Sealed.getCgi {t : Table} (h : Sealed (c.mem b) b q t.entries) (ht : c.htab = some t)
    (ht' : c'.htab = some t) (hm : (c'.mem b).take q = (c.mem b).take q) :
    getCgi L c' = getCgi L c := by
  have htext : ∀ {a}, Below (c.mem b) b q a → c'.text a = c.text a := fun ha => by
    rw [(ha.congr hm).text, ha.text, hm]
  funext name
  rw [Httpd.getCgi, Httpd.getCgi, ht, ht']
  dsimp only
  have hfind : t.entries.find? (hsearch L c' name) = t.entries.find? (hsearch L c name) :=
    List.find?_congr fun e he => by rw [hsearch, hsearch, htext (h e he).1]
  rw [hfind]
  cases hf : t.entries.find? (hsearch L c name) with
  | none => rfl
  | some e => exact congrArg some (htext (h e (List.mem_of_find?_eq_some hf)).2)

theorem getCgi_some {t : Table} (ht : c.htab = some t) (name : CStr) :
    getCgi L c name = (t.entries.find? (hsearch L c name)).map fun e => c.text e.data := by
  rw [getCgi, ht]

@[simp] theorem htab_text (t : Option Table) (a : Ptr) :
    Cgi.text { c with htab := t } a = c.text a := by
  rw [Cgi.text, mem_htab]
  rfl

theorem hsearch_htab (t : Option Table) (name : CStr) :
    hsearch L { c with htab := t } name = hsearch L c name := by
  funext e
  rw [hsearch, hsearch, htab_text]

theorem hsearch_data (name : CStr) (e : Entry) (value : Ptr) :
    hsearch L c name { e with data := value } = hsearch L c name e := rfl

theorem find_setData_self {found : Entry → Bool} (value : Ptr)
    (hdata : ∀ e, found { e with data := value } = found e) (es : List Entry) :
    (setData found value es).find? found =
      (es.find? found).map fun e => { e with data := value } := by
  induction es with
  | nil => rfl
  | cons e es ih =>
    rw [setData]
    cases he : found e with
    | true =>
      rw [if_pos rfl, List.find?_cons_of_pos ((hdata e).trans he), List.find?_cons_of_pos he]
      rfl
    | false =>
      rw [if_neg Bool.false_ne_true, List.find?_cons_of_neg (by rw [he]; exact Bool.false_ne_true),
        List.find?_cons_of_neg (by rw [he]; exact Bool.false_ne_true), ih]

theorem find_setData_other {found other : Entry → Bool} (value : Ptr)
    (hdata : ∀ e, other { e with data := value } = other e)
    (hother : ∀ e, found e = true → other e = false) (es : List Entry) :
    (setData found value es).find? other = es.find? other := by
  induction es with
  | nil => rfl
  | cons e es ih =>
    rw [setData]
    cases he : found e with
    | true =>
      have hneg := hother e he
      rw [if_pos rfl, List.find?_cons_of_neg (by rw [hdata, hneg]; exact Bool.false_ne_true),
        List.find?_cons_of_neg (by rw [hneg]; exact Bool.false_ne_true)]
    | false =>
      rw [if_neg Bool.false_ne_true, List.find?_cons, List.find?_cons, ih]

/-- `set_cgi`, as long as the table is not full. -/
theorem getCgi_setCgi {t : Table} (ht : c.htab = some t) (hroom : t.entries.length < t.size)
    (name value : Ptr) :
    getCgi L (setCgi L name value c) =
      Function.update (getCgi L c) (c.text name) (some (c.text value)) := by
  funext other
  by_cases hany : t.entries.any (hsearch L c (c.text name)) = true
  · have hset : setCgi L name value c = { c with htab := some { t with
        entries := setData (hsearch L c (c.text name)) value t.entries } } := by
      unfold setCgi
      rw [ht]
      dsimp only
      rw [if_pos hany]
    rw [hset, getCgi_some rfl, hsearch_htab (some _)]
    simp only [htab_text]
    by_cases hname : other = c.text name
    · subst hname
      rw [Function.update_self, find_setData_self value fun e => hsearch_data _ e value,
        Option.map_map]
      obtain ⟨e, he, hfound⟩ := List.any_eq_true.mp hany
      obtain ⟨a, ha⟩ := Option.isSome_iff_exists.mp (List.find?_isSome.mpr ⟨e, he, hfound⟩)
      rw [ha]
      rfl
    · have hother : ∀ e, hsearch L c (c.text name) e = true → hsearch L c other e = false := by
        intro e he
        rw [hsearch, decide_eq_true_eq] at he
        rw [hsearch, decide_eq_false_iff_not]
        exact fun h => hname (h.2.symm.trans he.2)
      rw [Function.update_of_ne hname, getCgi_some ht,
        find_setData_other value (fun e => hsearch_data _ e value) hother]
  · have hset : setCgi L name value c = { c with htab := some { t with
        entries := t.entries ++ [⟨L.hash (c.text name), name, value⟩] } } := by
      unfold setCgi
      rw [ht]
      dsimp only
      rw [if_neg hany, if_pos hroom]
    rw [hset, getCgi_some rfl, hsearch_htab (some _), List.find?_append]
    simp only [htab_text]
    by_cases hname : other = c.text name
    · subst hname
      have hnone : t.entries.find? (hsearch L c (c.text name)) = none :=
        List.find?_eq_none.mpr fun e he hfound => hany (List.any_eq_true.mpr ⟨e, he, hfound⟩)
      have hlast : hsearch L c (c.text name) ⟨L.hash (c.text name), name, value⟩ = true :=
        decide_eq_true ⟨rfl, rfl⟩
      rw [Function.update_self, hnone, List.find?_cons_of_pos hlast]
      rfl
    · have hlast : ¬ hsearch L c other ⟨L.hash (c.text name), name, value⟩ = true :=
        fun h => hname (of_decide_eq_true h).2.symm
      rw [Function.update_of_ne hname, getCgi_some ht, List.find?_cons_of_neg hlast,
        List.find?_nil, Option.or_none]

theorem setData_length (found : Entry → Bool) (value : Ptr) (es : List Entry) :
    (setData found value es).length = es.length := by
  induction es with
  | nil => rfl
  | cons e es ih =>
    rw [setData]
    split_ifs
    · rfl
    · rw [List.length_cons, List.length_cons, ih]

theorem Sealed.setData {m : List UInt8} {es : List Entry} (h : Sealed m b q es)
    (found : Entry → Bool) {value : Ptr} (hv : Below m b q value) :
    Sealed m b q (setData found value es) := by
  induction es with
  | nil => exact h
  | cons e es ih =>
    have hrest : Sealed m b q es := fun a ha => h a (List.mem_cons_of_mem e ha)
    rw [Httpd.setData]
    split_ifs
    · exact List.forall_mem_cons.mpr ⟨⟨(h e List.mem_cons_self).1, hv⟩, hrest⟩
    · exact List.forall_mem_cons.mpr ⟨h e List.mem_cons_self, ih hrest⟩

/-- The table after `set_cgi`. -/
theorem setCgi_table {table : Table} (ht : c.htab = some table) {m : List UInt8}
    (hsealed : Sealed m b q table.entries) {name value : Ptr} (hn : Below m b q name)
    (hv : Below m b q value) :
    ∃ table', (setCgi L name value c).htab = some table' ∧ table'.size = table.size ∧
      table'.entries.length ≤ table.entries.length + 1 ∧ Sealed m b q table'.entries := by
  unfold setCgi
  rw [ht]
  dsimp only
  split_ifs
  · exact ⟨_, rfl, rfl, by rw [setData_length]; omega, hsealed.setData _ hv⟩
  · exact ⟨_, rfl, rfl, by rw [List.length_append]; rfl,
      List.forall_mem_append.mpr ⟨hsealed, List.forall_mem_singleton.mpr ⟨hn, hv⟩⟩⟩
  · exact ⟨table, ht, rfl, by omega, hsealed⟩

end

end EzpFirmware.Httpd
