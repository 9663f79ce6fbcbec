import ClassSort.Json.Value

/-!
# Documents in plain form

A table of a document may have its keys in any order, and some of them twice. In a *plain* document
every table has its keys in ascending order, so each of them once, and every number is finite.

* `sortFields` gives an ascending table and leaves an ascending one as it is;
* choosing entries by their keys and changing their values can be done before or after it
  (`filter_sortFields`, `map_sortFields`), so whoever looks at some of the keys does not see the
  order;
* `normalize` gives plain documents and leaves a plain one as it is.
-/

namespace ClassSort

/-- A number that a plain document may hold. -/
def Number.IsFinite : Number → Prop
  | .binary x => x.isFinite = true
  | _ => True

namespace Json

variable {α β : Type} {fields : List (String × α)}

/-- The keys of a table ascend. -/
def Ascending (fields : List (String × α)) : Prop := fields.Pairwise fun a b => a.1 < b.1

/-! ## Putting a table in order -/

theorem lt_of_not_lt {key k : String} (hne : key ≠ k) (h : ¬ key < k) : k < key := by
  rcases String.le_total k key with hle | hle
  · exact Classical.byContradiction fun hk =>
      hne (String.le_antisymm (String.not_lt.mp hk) hle)
  · exact absurd (String.le_antisymm hle (String.not_lt.mp h)) hne

theorem mem_insertField {key : String} {value : α} {f : String × α}
    (h : f ∈ insertField key value fields) : f = (key, value) ∨ f ∈ fields := by
  induction fields with
  | nil => exact .inl (List.mem_singleton.mp h)
  | cons g rest ih =>
      rw [insertField] at h
      split at h
      · exact (List.mem_cons.mp h).imp_right (List.mem_cons_of_mem g)
      · split at h
        · exact List.mem_cons.mp h
        · rcases List.mem_cons.mp h with rfl | h
          · exact .inr List.mem_cons_self
          · exact (ih h).imp_right (List.mem_cons_of_mem g)

theorem ascending_insertField (key : String) (value : α) (h : Ascending fields) :
    Ascending (insertField key value fields) := by
  induction fields with
  | nil => exact List.pairwise_singleton _ _
  | cons g rest ih =>
      obtain ⟨hfirst, hrest⟩ := List.pairwise_cons.mp h
      rw [insertField]
      split
      · rename_i heq
        exact List.pairwise_cons.mpr ⟨fun f hf => heq ▸ hfirst f hf, hrest⟩
      · rename_i hne
        split
        · rename_i hlt
          refine List.pairwise_cons.mpr ⟨fun f hf => ?_, h⟩
          rcases List.mem_cons.mp hf with rfl | hf
          · exact hlt
          · exact String.lt_trans hlt (hfirst f hf)
        · rename_i hge
          refine List.pairwise_cons.mpr ⟨fun f hf => ?_, ih hrest⟩
          rcases mem_insertField hf with rfl | hf
          · exact lt_of_not_lt hne hge
          · exact hfirst f hf

/-- An entry with a key beyond all others goes to the end. -/
theorem insertField_of_forall_lt {key : String} (value : α) (h : ∀ f ∈ fields, f.1 < key) :
    insertField key value fields = fields ++ [(key, value)] := by
  induction fields with
  | nil => rfl
  | cons g rest ih =>
      obtain ⟨hg, hrest⟩ := List.forall_mem_cons.mp h
      rw [insertField, if_neg, if_neg (String.lt_asymm hg), ih hrest]
      · rfl
      · rintro rfl
        exact String.lt_irrefl _ hg

/-- An entry with a key before all others goes to the front. -/
theorem insertField_of_lt_forall {key : String} (value : α) (h : ∀ f ∈ fields, key < f.1) :
    insertField key value fields = (key, value) :: fields := by
  cases fields with
  | nil => rfl
  | cons g rest =>
      have hg := h g List.mem_cons_self
      rw [insertField, if_neg, if_pos hg]
      rintro rfl
      exact String.lt_irrefl _ hg

/-- Putting entries in order one after the other, behind some that are in order already. -/
def sortOnto (done fields : List (String × α)) : List (String × α) :=
  fields.foldl (fun acc (k, v) => insertField k v acc) done

theorem ascending_sortOnto {done : List (String × α)} (h : Ascending done)
    (fields : List (String × α)) : Ascending (sortOnto done fields) := by
  induction fields generalizing done with
  | nil => exact h
  | cons f fields ih => exact ih (ascending_insertField f.1 f.2 h)

/-- **A table that was put in order ascends.** -/
theorem ascending_sortFields (fields : List (String × α)) : Ascending (sortFields fields) :=
  ascending_sortOnto List.Pairwise.nil fields

theorem sortOnto_of_ascending {done : List (String × α)} (h : Ascending (done ++ fields)) :
    sortOnto done fields = done ++ fields := by
  induction fields generalizing done with
  | nil => exact (List.append_nil done).symm
  | cons f fields ih =>
      have hlast : ∀ g ∈ done, g.1 < f.1 := fun g hg =>
        (List.pairwise_append.mp h).2.2 g hg f List.mem_cons_self
      rw [List.append_cons] at h
      show sortOnto (insertField f.1 f.2 done) fields = _
      rw [insertField_of_forall_lt f.2 hlast, ih h, ← List.append_cons]

/-- **A table that ascends stays as it is.** -/
theorem sortFields_of_ascending (h : Ascending fields) : sortFields fields = fields :=
  @sortOnto_of_ascending α fields [] h

theorem mem_sortOnto {done : List (String × α)} {f : String × α} (h : f ∈ sortOnto done fields) :
    f ∈ done ∨ f ∈ fields := by
  induction fields generalizing done with
  | nil => exact .inl h
  | cons g fields ih =>
      rcases ih h with hdone | hrest
      · rcases mem_insertField hdone with rfl | hdone
        · exact .inr List.mem_cons_self
        · exact .inl hdone
      · exact .inr (List.mem_cons_of_mem g hrest)

theorem mem_of_mem_sortFields {f : String × α} (h : f ∈ sortFields fields) : f ∈ fields :=
  (mem_sortOnto h).resolve_left List.not_mem_nil

/-! ## Some of the keys -/

section

variable (p : String → Bool)

theorem filter_insertField {key : String} (value : α) (h : Ascending fields) :
    (insertField key value fields).filter (fun f => p f.1) =
      if p key then insertField key value (fields.filter fun f => p f.1)
      else fields.filter fun f => p f.1 := by
  induction fields with
  | nil =>
      cases hp : p key <;> simp [insertField, hp]
  | cons g rest ih =>
      obtain ⟨hfirst, hrest⟩ := List.pairwise_cons.mp h
      rw [insertField]
      split
      · rename_i heq
        cases hp : p key <;> simp [← heq, hp, insertField]
      · rename_i hne
        split
        · rename_i hlt
          -- the entry goes to the front, whichever of the others are kept
          have hfront : ∀ f ∈ (g :: rest).filter fun f => p f.1, key < f.1 := by
            intro f hf
            rcases List.mem_cons.mp (List.mem_filter.mp hf).1 with rfl | hf
            · exact hlt
            · exact String.lt_trans hlt (hfirst f hf)
          rw [insertField_of_lt_forall value hfront]
          cases hp : p key <;> simp [hp]
        · rename_i hge
          rw [List.filter_cons, ih hrest, List.filter_cons]
          cases hg : p g.1 <;> cases hp : p key <;> simp [insertField, hne, hge]

theorem filter_sortOnto {done : List (String × α)} (h : Ascending done)
    (fields : List (String × α)) :
    (sortOnto done fields).filter (fun f => p f.1) =
      sortOnto (done.filter fun f => p f.1) (fields.filter fun f => p f.1) := by
  induction fields generalizing done with
  | nil => rfl
  | cons f fields ih =>
      show (sortOnto (insertField f.1 f.2 done) fields).filter _ = _
      rw [ih (ascending_insertField f.1 f.2 h), filter_insertField p f.2 h]
      cases hp : p f.1 with
      | false => simp [hp]
      | true => simp [hp, sortOnto]

/-- **Entries may be chosen by their keys before or after the table is put in order.** -/
theorem filter_sortFields (fields : List (String × α)) :
    (sortFields fields).filter (fun f => p f.1) = sortFields (fields.filter fun f => p f.1) :=
  filter_sortOnto p List.Pairwise.nil fields

end

/-! ## Other values -/

section

variable (g : α → β)

theorem map_insertField (key : String) (value : α) (fields : List (String × α)) :
    (insertField key value fields).map (fun f => (f.1, g f.2)) =
      insertField key (g value) (fields.map fun f => (f.1, g f.2)) := by
  induction fields with
  | nil => rfl
  | cons f rest ih =>
      rw [insertField, List.map_cons, insertField]
      split
      · rfl
      · split
        · rfl
        · rw [List.map_cons, ih]

theorem map_sortOnto (done fields : List (String × α)) :
    (sortOnto done fields).map (fun f => (f.1, g f.2)) =
      sortOnto (done.map fun f => (f.1, g f.2)) (fields.map fun f => (f.1, g f.2)) := by
  induction fields generalizing done with
  | nil => rfl
  | cons f fields ih =>
      show (sortOnto (insertField f.1 f.2 done) fields).map _ = _
      rw [ih, map_insertField]
      rfl

theorem map_sortFields (fields : List (String × α)) :
    (sortFields fields).map (fun f => (f.1, g f.2)) =
      sortFields (fields.map fun f => (f.1, g f.2)) :=
  map_sortOnto g [] fields

end

/-! ## Plain values -/

/-- A value in plain form. -/
inductive Plain : Json → Prop where
  | null : Plain .null
  | bool (b : Bool) : Plain (.bool b)
  | number {n : Number} : n.IsFinite → Plain (.number n)
  | string (s : String) : Plain (.string s)
  | array {items : List Json} : (∀ j ∈ items, Plain j) → Plain (.array items)
  | object {fields : List (String × Json)} :
      Ascending fields → (∀ f ∈ fields, Plain f.2) → Plain (.object fields)

theorem normalize_array (items : List Json) :
    normalize (.array items) = (normalizeList items).map .array := rfl

theorem normalize_object (fields : List (String × Json)) :
    normalize (.object fields) =
      (normalizeFields fields).map fun fs => .object (sortFields fs) := rfl

theorem normalizeList_cons {j : Json} {js ws : List Json} :
    normalizeList (j :: js) = some ws ↔
      ∃ v vs, normalize j = some v ∧ normalizeList js = some vs ∧ ws = v :: vs := by
  constructor
  · intro h
    obtain ⟨v, hv, h⟩ := Option.bind_eq_some_iff.mp h
    obtain ⟨vs, hvs, h⟩ := Option.bind_eq_some_iff.mp h
    exact ⟨v, vs, hv, hvs, (Option.some.inj h).symm⟩
  · rintro ⟨v, vs, hv, hvs, rfl⟩
    show (normalize j).bind _ = _
    rw [hv, hvs]
    rfl

theorem normalizeFields_cons {f : String × Json} {fs ws : List (String × Json)} :
    normalizeFields (f :: fs) = some ws ↔
      ∃ v vs, normalize f.2 = some v ∧ normalizeFields fs = some vs ∧ ws = (f.1, v) :: vs := by
  constructor
  · intro h
    obtain ⟨v, hv, h⟩ := Option.bind_eq_some_iff.mp h
    obtain ⟨vs, hvs, h⟩ := Option.bind_eq_some_iff.mp h
    exact ⟨v, vs, hv, hvs, (Option.some.inj h).symm⟩
  · rintro ⟨v, vs, hv, hvs, rfl⟩
    show (normalize f.2).bind _ = _
    rw [hv, hvs]
    rfl

theorem normalizeList_of_forall {items : List Json} (h : ∀ j ∈ items, normalize j = some j) :
    normalizeList items = some items := by
  induction items with
  | nil => rfl
  | cons j js ih =>
      obtain ⟨hj, hjs⟩ := List.forall_mem_cons.mp h
      exact normalizeList_cons.mpr ⟨j, js, hj, ih hjs, rfl⟩

theorem normalizeFields_of_forall {fields : List (String × Json)}
    (h : ∀ f ∈ fields, normalize f.2 = some f.2) : normalizeFields fields = some fields := by
  induction fields with
  | nil => rfl
  | cons f fs ih =>
      obtain ⟨hf, hfs⟩ := List.forall_mem_cons.mp h
      exact normalizeFields_cons.mpr ⟨f.2, fs, hf, ih hfs, rfl⟩

/-- **A plain value stays as it is.** -/
theorem normalize_of_plain {j : Json} (h : j.Plain) : normalize j = some j := by
  induction h with
  | null | bool | string => rfl
  | @number n hn =>
      cases n with
      | natural | negSucc => rfl
      | binary x => exact congrArg some (if_pos hn)
  | array _ ih => rw [normalize_array, normalizeList_of_forall ih]; rfl
  | object hascending _ ih =>
      rw [normalize_object, normalizeFields_of_forall ih, Option.map_some,
        sortFields_of_ascending hascending]

mutual

/-- **What `normalize` gives is plain.** -/
theorem plain_of_normalize : ∀ {j v : Json}, normalize j = some v → v.Plain
  | .null, _, h => by cases h; exact .null
  | .bool b, _, h => by cases h; exact .bool b
  | .number (.natural n), _, h => by cases h; exact .number trivial
  | .number (.negSucc n), _, h => by cases h; exact .number trivial
  | .number (.binary x), _, h => by
      cases h
      split
      · rename_i hfinite
        exact .number hfinite
      · exact .null
  | .string s, _, h => by cases h; exact .string s
  | .array items, _, h => by
      obtain ⟨vs, hvs, rfl⟩ := Option.map_eq_some_iff.mp h
      exact .array (plain_of_normalizeList hvs)
  | .object fields, _, h => by
      obtain ⟨vs, hvs, rfl⟩ := Option.map_eq_some_iff.mp h
      refine .object (ascending_sortFields vs) fun f hf => ?_
      exact plain_of_normalizeFields hvs f (mem_of_mem_sortFields hf)

theorem plain_of_normalizeList : ∀ {items vs : List Json},
    normalizeList items = some vs → ∀ v ∈ vs, v.Plain
  | [], _, h => by cases h; exact fun _ hv => absurd hv List.not_mem_nil
  | _ :: _, _, h => by
      obtain ⟨v, vs, hv, hvs, rfl⟩ := normalizeList_cons.mp h
      exact List.forall_mem_cons.mpr ⟨plain_of_normalize hv, plain_of_normalizeList hvs⟩

theorem plain_of_normalizeFields : ∀ {fields vs : List (String × Json)},
    normalizeFields fields = some vs → ∀ f ∈ vs, f.2.Plain
  | [], _, h => by cases h; exact fun _ hf => absurd hf List.not_mem_nil
  | (_, _) :: _, _, h => by
      obtain ⟨v, vs, hv, hvs, rfl⟩ := normalizeFields_cons.mp h
      exact List.forall_mem_cons.mpr ⟨plain_of_normalize hv, plain_of_normalizeFields hvs⟩

end

theorem normalize_normalize {j v : Json} (h : normalize j = some v) : normalize v = some v :=
  normalize_of_plain (plain_of_normalize h)

/-- A value that has a plain form. -/
def Usable (j : Json) : Prop := ∃ v, normalize j = some v

theorem Plain.usable {j : Json} (h : j.Plain) : j.Usable := ⟨j, normalize_of_plain h⟩

theorem usable_array {items : List Json} (h : ∀ j ∈ items, j.Usable) : (array items).Usable := by
  suffices ∃ vs, normalizeList items = some vs by
    obtain ⟨vs, hvs⟩ := this
    exact ⟨.array vs, by rw [normalize_array, hvs]; rfl⟩
  induction items with
  | nil => exact ⟨[], rfl⟩
  | cons j js ih =>
      obtain ⟨⟨v, hv⟩, hjs⟩ := List.forall_mem_cons.mp h
      obtain ⟨vs, hvs⟩ := ih hjs
      exact ⟨v :: vs, normalizeList_cons.mpr ⟨v, vs, hv, hvs, rfl⟩⟩

theorem usable_object {fields : List (String × Json)} (h : ∀ f ∈ fields, f.2.Usable) :
    (object fields).Usable := by
  suffices ∃ vs, normalizeFields fields = some vs by
    obtain ⟨vs, hvs⟩ := this
    exact ⟨.object (sortFields vs), by rw [normalize_object, hvs]; rfl⟩
  induction fields with
  | nil => exact ⟨[], rfl⟩
  | cons f fs ih =>
      obtain ⟨⟨v, hv⟩, hfs⟩ := List.forall_mem_cons.mp h
      obtain ⟨vs, hvs⟩ := ih hfs
      exact ⟨(f.1, v) :: vs, normalizeFields_cons.mpr ⟨v, vs, hv, hvs, rfl⟩⟩

theorem usable_map {α : Type} {encode : α → Json} (h : ∀ a, (encode a).Usable) (as : List α) :
    (array (as.map encode)).Usable := by
  refine usable_array fun j hj => ?_
  obtain ⟨a, -, rfl⟩ := List.mem_map.mp hj
  exact h a

/-- Entries may be chosen by their keys before or after their values are put in plain form. -/
theorem normalizeFields_filter (p : String → Bool) {fields vs : List (String × Json)}
    (h : normalizeFields fields = some vs) :
    normalizeFields (fields.filter fun f => p f.1) = some (vs.filter fun f => p f.1) := by
  induction fields generalizing vs with
  | nil => cases h; rfl
  | cons f fields ih =>
      obtain ⟨v, vs, hv, hvs, rfl⟩ := normalizeFields_cons.mp h
      cases hp : p f.1 with
      | false => simp [hp, ih hvs]
      | true =>
          simp only [List.filter_cons, hp, if_true]
          exact normalizeFields_cons.mpr ⟨v, _, hv, ih hvs, rfl⟩

end Json

end ClassSort
