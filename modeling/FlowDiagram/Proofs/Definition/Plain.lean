import FlowDiagram.Definition.Payload
import FlowDiagram.Proofs.Json.Documents
import FlowDiagram.Proofs.Lists
/-!
# Plain forms and the order of fields

What is shown of a value is its plain form. It is its own plain form (`plain_plain`), and a JSON
value whose mappings have each key once and whose numbers are finite is shown as it is
(`plain_of_strict`).

Fields are shown with the known ones first, in an order of their own. Arranging them so changes
nothing of what is found under a name (`Entries.get?_arrange`), and fields that are arranged are not
moved again (`Entries.arrange_eq_self`). `ShownFields` puts both together: shown fields are shown as
they are, in the same places.
-/

namespace FlowDiagram.Definition

open Document

/-! ## Selecting entries -/

namespace Entries

variable {α : Type} {es es' : Entries α} {known : List String} {name : String}

@[simp] theorem get?_nil (name : String) : Entries.get? ([] : Entries α) name = none := rfl

theorem get?_append (es es' : Entries α) (name : String) :
    (es ++ es').get? name = (es.get? name).or (es'.get? name) :=
  List.lookup_append

theorem get?_eq_none_iff : es.get? name = none ↔ name ∉ es.names := by
  constructor
  · intro missing known
    obtain ⟨v, found⟩ := exists_lookup_of_mem_keys known
    exact absurd (missing.symm.trans found) (Option.some_ne_none v).symm
  · intro unknown
    refine Option.eq_none_iff_forall_ne_some.mpr fun v found => unknown ?_
    exact List.mem_map_of_mem (mem_of_get? found)

theorem names_append (es es' : Entries α) : (es ++ es').names = es.names ++ es'.names :=
  List.map_append

theorem among_append (front back : List String) (es : Entries α) :
    es.among (front ++ back) = es.among front ++ es.among back :=
  List.filterMap_append

theorem outside_append (known : List String) (es es' : Entries α) :
    (es ++ es').outside known = es.outside known ++ es'.outside known :=
  List.filter_append _ _

theorem among_cons (name : String) (known : List String) (es : Entries α) :
    es.among (name :: known) = ((es.get? name).map (name, ·)).toList ++ es.among known := by
  rw [among, List.filterMap_cons, among]
  cases es.get? name <;> rfl

theorem names_among_sublist (known : List String) (es : Entries α) :
    (es.among known).names.Sublist known := by
  induction known with
  | nil => exact List.nil_sublist _
  | cons name known ih =>
      rw [among_cons]
      cases es.get? name with
      | none => exact ih.cons name
      | some v => exact ih.cons_cons name

theorem not_mem_names_outside : ∀ n ∈ (es.outside known).names, n ∉ known := by
  intro n member
  obtain ⟨e, kept, rfl⟩ := List.mem_map.mp member
  simpa using (List.mem_filter.mp kept).2

theorem among_congr (same : ∀ n ∈ known, es.get? n = es'.get? n) :
    es.among known = es'.among known :=
  List.filterMap_congr fun n member => by rw [same n member]

/-- Entries whose names stand in the order of some names are selected by these. -/
theorem among_eq_self (distinct : known.Nodup) (ordered : es.names.Sublist known) :
    es.among known = es := by
  induction known generalizing es with
  | nil =>
      obtain rfl := List.map_eq_nil_iff.mp (List.eq_nil_of_sublist_nil ordered)
      rfl
  | cons name known ih =>
      obtain ⟨fresh, apart⟩ := List.nodup_cons.mp distinct
      rw [among_cons]
      obtain later | ⟨others, begins, later⟩ := List.sublist_cons_iff.mp ordered
      · have missing : es.get? name = none :=
          get?_eq_none_iff.mpr fun here => fresh (later.subset here)
        rw [missing, ih apart later]
        rfl
      · obtain ⟨⟨n, v⟩, rest, rfl, first, rfl⟩ := List.map_eq_cons_iff.mp begins
        obtain rfl : n = name := first
        have same : among known ((n, v) :: rest) = among known rest := by
          refine among_congr fun m member => ?_
          rw [get?_cons, if_neg fun here : m = n => fresh (here ▸ member)]
        rw [get?_cons, if_pos rfl, same, ih apart later]
        rfl

theorem outside_eq_self (apart : ∀ n ∈ es.names, n ∉ known) : es.outside known = es := by
  refine List.filter_eq_self.mpr fun e member => ?_
  simpa using apart e.1 (List.mem_map_of_mem member)

theorem outside_eq_nil (inside : ∀ n ∈ es.names, n ∈ known) : es.outside known = [] := by
  refine List.filter_eq_nil_iff.mpr fun e member => ?_
  simpa using inside e.1 (List.mem_map_of_mem member)

theorem get?_among (known : List String) (es : Entries α) (name : String) :
    (es.among known).get? name = if name ∈ known then es.get? name else none := by
  induction known with
  | nil => rfl
  | cons n known ih =>
      rw [among_cons, get?_append, ih]
      obtain rfl | other := eq_or_ne name n
      · cases es.get? name <;> simp [get?_cons]
      · have own : get? ((es.get? n).map (n, ·)).toList name = none := by
          cases es.get? n with
          | none => rfl
          | some v => exact (get?_cons name n v []).trans (if_neg other)
        simp [own, other]

theorem get?_outside (known : List String) (es : Entries α) (name : String) :
    (es.outside known).get? name = if name ∈ known then none else es.get? name := by
  induction es with
  | nil => simp [outside]
  | cons first rest ih =>
      obtain ⟨n, v⟩ := first
      rw [outside] at ih ⊢
      by_cases listed : n ∈ known <;> by_cases here : name = n <;>
        simp_all [get?_cons]

/-! ### Known fields first -/

/-- The entries with known names, in the order of these, and then all others in their own. -/
def arrange (known : List String) (es : Entries α) : Entries α := es.among known ++ es.outside known

/-- Arranging entries changes nothing of what is found under a name. -/
theorem get?_arrange (known : List String) (es : Entries α) (name : String) :
    (es.arrange known).get? name = es.get? name := by
  rw [arrange, get?_append, get?_among, get?_outside]
  by_cases listed : name ∈ known <;> simp [listed]

theorem outside_arrange (known : List String) (es : Entries α) :
    (es.arrange known).outside known = es.outside known := by
  rw [arrange, outside_append, outside_eq_nil fun n member =>
    (names_among_sublist known es).subset member, outside_eq_self not_mem_names_outside]
  rfl

theorem names_arrange_subset (known : List String) (es : Entries α) :
    (es.arrange known).names ⊆ es.names := by
  intro n member
  by_contra missing
  rw [← get?_eq_none_iff, ← get?_arrange known, get?_eq_none_iff] at missing
  exact missing member

theorem nodup_names_arrange (ordered : known.Nodup) (distinct : es.names.Nodup) :
    (es.arrange known).names.Nodup := by
  rw [arrange, names_append, List.nodup_append']
  refine ⟨ordered.sublist (names_among_sublist known es),
    distinct.sublist (List.filter_sublist.map _), fun n first later => ?_⟩
  exact not_mem_names_outside n later ((names_among_sublist known es).subset first)

theorem mem_of_mem_arrange {e : String × α} (member : e ∈ es.arrange known) : e ∈ es := by
  obtain first | later := List.mem_append.mp member
  · obtain ⟨n, -, selected⟩ := List.mem_filterMap.mp first
    obtain ⟨v, found, rfl⟩ := Option.map_eq_some_iff.mp selected
    exact mem_of_get? found
  · exact (List.mem_filter.mp later).1

/-- Only what stands in front of unknown entries can have known names. -/
theorem among_append_of_unknown {front back : Entries α} (unknown : ∀ n ∈ back.names, n ∉ known) :
    (front ++ back).among known = front.among known := by
  refine among_congr fun n member => ?_
  rw [get?_append, get?_eq_none_iff.mpr fun later => unknown n later member, Option.or_none]

theorem arrange_eq_self {front back : Entries α} (distinct : known.Nodup)
    (ordered : front.names.Sublist known) (unknown : ∀ n ∈ back.names, n ∉ known) :
    (front ++ back).arrange known = front ++ back := by
  rw [arrange, among_append_of_unknown unknown, among_eq_self distinct ordered, outside_append,
    outside_eq_nil fun n member => ordered.subset member, outside_eq_self unknown]
  rfl

/-- The same is found under each name, and the entries with unknown names stand in one order. -/
structure SameButOrder (known : List String) (es es' : Entries α) : Prop where
  found : ∀ name, es.get? name = es'.get? name
  others : es.outside known = es'.outside known

theorem sameButOrder_arrange (known : List String) (es : Entries α) :
    SameButOrder known (es.arrange known) es where
  found := get?_arrange known es
  others := outside_arrange known es

end Entries

/-! ## Plain forms -/

section

variable {fields shown : Entries Value} {v w : Value}

theorem plainItems_of_plain {items : List Value} (each : ∀ v ∈ items, plain v = .ok v) :
    plainItems items = .ok items := by
  induction items with
  | nil => rfl
  | cons v rest ih =>
      obtain ⟨own, others⟩ := List.forall_mem_cons.mp each
      rw [plainItems, own, ih others]
      rfl

theorem plain_record_of_plain (distinct : fields.names.Nodup)
    (each : ∀ e ∈ fields, plain e.2 = .ok e.2) :
    plain (.record fields) = .ok (.record fields) := by
  have entries : plainEntries (fields.map fun e => (.str e.1, e.2)) = .ok fields := by
    clear distinct
    induction fields with
    | nil => rfl
    | cons e rest ih =>
        obtain ⟨own, others⟩ := List.forall_mem_cons.mp each
        rw [List.map_cons, plainEntries, plainKey, own, ih others]
        rfl
  have mapped : plain (.record fields) =
      (plainEntries (fields.map fun e => (.str e.1, e.2))).map
        fun es => .record (Entries.ofList es) := by rw [Value.record, plain]
  rw [mapped, entries]
  exact congrArg (Except.ok ∘ Value.record) (Entries.ofList_eq_self distinct)

mutual

/-- What is shown of a value is its own plain form. -/
theorem plain_plain : ∀ (v : Value) {w : Value}, plain v = .ok w → plain w = .ok w
  | .null, w, h => by cases h; rfl
  | .bool b, w, h => by cases h; rfl
  | .int n, w, h => by cases h; rfl
  | .float x, w, h => by
      rw [plain] at h
      cases h
      split
      · next finite => rw [plain, if_pos finite]
      · rfl
  | .str s, w, h => by cases h; rfl
  | .bytes bs, w, h => by
      obtain ⟨s, -, rfl⟩ := map_eq_ok_iff.mp h
      rfl
  | .date d, w, h => by cases h; rfl
  | .moment t, w, h => by cases h; rfl
  | .pair k v, w, h => by
      obtain ⟨k', first, h⟩ := bind_eq_ok_iff.mp h
      obtain ⟨v', second, h⟩ := bind_eq_ok_iff.mp h
      cases h
      have items : plainItems [k', v'] = .ok [k', v'] := plainItems_of_plain <|
        List.forall_mem_cons.mpr
          ⟨plain_plain k first, List.forall_mem_singleton.mpr (plain_plain v second)⟩
      rw [plain, items]
      rfl
  | .seq items, w, h => by
      obtain ⟨shown, each, rfl⟩ := map_eq_ok_iff.mp h
      rw [plain, plainItems_of_plain (plain_of_plainItems items each)]
      rfl
  | .map entries, w, h => by
      obtain ⟨fields, each, rfl⟩ := map_eq_ok_iff.mp h
      refine plain_record_of_plain (Entries.nodup_names_ofList _) fun e member => ?_
      exact plain_of_plainEntries entries each e (Entries.mem_of_mem_ofList member)
termination_by structural v => v

theorem plain_of_plainItems : ∀ (items : List Value) {shown : List Value},
    plainItems items = .ok shown → ∀ v ∈ shown, plain v = .ok v
  | [], shown, h => by
      cases h
      exact fun v member => absurd member List.not_mem_nil
  | v :: rest, shown, h => by
      obtain ⟨w, own, h⟩ := bind_eq_ok_iff.mp h
      obtain ⟨others, later, h⟩ := bind_eq_ok_iff.mp h
      cases h
      exact List.forall_mem_cons.mpr ⟨plain_plain v own, plain_of_plainItems rest later⟩
termination_by structural items => items

theorem plain_of_plainEntries : ∀ (entries : List (Value × Value)) {fields : Entries Value},
    plainEntries entries = .ok fields → ∀ e ∈ fields, plain e.2 = .ok e.2
  | [], fields, h => by
      cases h
      exact fun e member => absurd member List.not_mem_nil
  | (k, v) :: rest, fields, h => by
      obtain ⟨name, -, h⟩ := bind_eq_ok_iff.mp h
      obtain ⟨w, own, h⟩ := bind_eq_ok_iff.mp h
      obtain ⟨others, later, h⟩ := bind_eq_ok_iff.mp h
      cases h
      exact List.forall_mem_cons.mpr ⟨plain_plain v own, plain_of_plainEntries rest later⟩
termination_by structural entries => entries

end

/-- A JSON value with finite numbers and distinct keys is shown as it is. -/
theorem plain_of_strict (strict : v.Strict) : plain v = .ok v := by
  induction strict with
  | null => rfl
  | bool b => rfl
  | int n => rfl
  | float finite => rw [plain, if_pos finite]
  | str s => rfl
  | seq each ih =>
      rw [plain, plainItems_of_plain ih]
      rfl
  | record distinct each ih => exact plain_record_of_plain distinct ih

/-- A field is shown as another one of the same name. -/
def ShownAs (e s : String × Value) : Prop := s.1 = e.1 ∧ plain e.2 = .ok s.2

theorem plainFields_eq_ok_iff : plainFields fields = .ok shown ↔
    List.Forall₂ ShownAs fields shown := by
  induction fields generalizing shown with
  | nil =>
      rw [plainFields, List.forall₂_nil_left_iff, Except.ok.injEq, eq_comm]
  | cons e rest ih =>
      obtain ⟨name, v⟩ := e
      constructor
      · intro h
        obtain ⟨w, own, h⟩ := bind_eq_ok_iff.mp h
        obtain ⟨others, later, h⟩ := bind_eq_ok_iff.mp h
        cases h
        exact .cons ⟨rfl, own⟩ (ih.mp later)
      · rintro (_ | @⟨_, ⟨_, w⟩, _, others, ⟨rfl, own⟩, later⟩)
        rw [plainFields, own, ih.mpr later]
        rfl

theorem plainFields_append_eq_ok_iff {front back : Entries Value} :
    plainFields (front ++ back) = .ok shown ↔
      ∃ x y, plainFields front = .ok x ∧ plainFields back = .ok y ∧ x ++ y = shown := by
  simp only [plainFields_eq_ok_iff]
  constructor
  · intro each
    induction front generalizing shown with
    | nil => exact ⟨[], shown, .nil, each, rfl⟩
    | cons e rest ih =>
        obtain _ | ⟨own, later⟩ := each
        obtain ⟨x, y, first, second, rfl⟩ := ih later
        exact ⟨_, y, .cons own first, second, rfl⟩
  · rintro ⟨x, y, first, second, rfl⟩
    exact List.rel_append first second

theorem names_of_plainFields (h : plainFields fields = .ok shown) : shown.names = fields.names := by
  have each := plainFields_eq_ok_iff.mp h
  clear h
  induction each with
  | nil => rfl
  | cons own later ih => exact congrArg₂ List.cons own.1 ih

/-- Fields that are shown are shown as they are. -/
theorem plainFields_of_plainFields (h : plainFields fields = .ok shown) :
    plainFields shown = .ok shown := by
  have each := plainFields_eq_ok_iff.mp h
  clear h
  rw [plainFields_eq_ok_iff]
  induction each with
  | nil => exact .nil
  | cons own later ih => exact .cons ⟨rfl, plain_plain _ own.2⟩ ih

theorem eq_of_plainFields (h : plainFields fields = .ok shown)
    (strict : ∀ e ∈ fields, e.2.Strict) : shown = fields := by
  have each := plainFields_eq_ok_iff.mp h
  clear h
  induction each with
  | nil => rfl
  | cons own later ih =>
      obtain ⟨first, others⟩ := List.forall_mem_cons.mp strict
      have same := Except.ok.inj (own.2.symm.trans (plain_of_strict first))
      rw [ih others, Prod.ext own.1 same]

end

/-- How fields are shown: plain, known ones first, and without new names. Fields of JSON are shown
as they are, in this order. -/
structure ShownFields (known : List String) (fields shown : Entries Value) : Prop where
  arranged : shown.arrange known = shown
  plain : plainFields shown = .ok shown
  names : shown.names ⊆ fields.names
  distinct : fields.names.Nodup → shown.names.Nodup
  strict : (∀ e ∈ fields, e.2.Strict) →
    Entries.SameButOrder known shown fields

theorem shownFields_of_arrange {known : List String} {fields shown : Entries Value}
    (distinct : known.Nodup) (h : plainFields (fields.arrange known) = .ok shown) :
    ShownFields known fields shown where
  arranged := by
    obtain ⟨x, y, first, second, rfl⟩ := plainFields_append_eq_ok_iff.mp h
    refine Entries.arrange_eq_self distinct ?_ ?_
    · exact names_of_plainFields first ▸ Entries.names_among_sublist known fields
    · exact names_of_plainFields second ▸ Entries.not_mem_names_outside
  plain := plainFields_of_plainFields h
  names := names_of_plainFields h ▸ Entries.names_arrange_subset known fields
  distinct other := names_of_plainFields h ▸ Entries.nodup_names_arrange distinct other
  strict := by
    intro strict
    have kept : ∀ e ∈ fields.arrange known, e.2.Strict :=
      fun e member => strict e (Entries.mem_of_mem_arrange member)
    exact eq_of_plainFields h kept ▸ Entries.sameButOrder_arrange known fields

/-- Fields that are shown in two parts, some known ones in front of all others, are divided again
where they were. -/
theorem shownFields_of_parts {front back : List String} {fields first last : Entries Value}
    (distinct : (front ++ back).Nodup) (leading : plainFields (fields.among front) = .ok first)
    (trailing : plainFields (fields.among back ++ fields.outside (front ++ back)) = .ok last) :
    ShownFields (front ++ back) fields (first ++ last) ∧ (first ++ last).among front = first ∧
      (first ++ last).among back ++ (first ++ last).outside (front ++ back) = last := by
  have whole : plainFields (fields.arrange (front ++ back)) = .ok (first ++ last) := by
    rw [Entries.arrange, Entries.among_append, List.append_assoc]
    exact plainFields_append_eq_ok_iff.mpr ⟨first, last, leading, trailing, rfl⟩
  have kept := shownFields_of_arrange distinct whole
  obtain ⟨apart, -, disjoint⟩ := List.nodup_append'.mp distinct
  have later : ∀ n ∈ last.names, n ∉ front := by
    rw [names_of_plainFields trailing, Entries.names_append]
    refine List.forall_mem_append.mpr ⟨fun n here listed => ?_, fun n here listed => ?_⟩
    · exact disjoint listed ((Entries.names_among_sublist back fields).subset here)
    · exact Entries.not_mem_names_outside n here (List.mem_append_left back listed)
  have parted : (first ++ last).among front = first := by
    rw [Entries.among_append_of_unknown later]
    refine Entries.among_eq_self apart ?_
    exact names_of_plainFields leading ▸ Entries.names_among_sublist front fields
  have arranged := kept.arranged
  rw [Entries.arrange, Entries.among_append, parted, List.append_assoc] at arranged
  exact ⟨kept, parted, List.append_cancel_left arranged⟩

end FlowDiagram.Definition
