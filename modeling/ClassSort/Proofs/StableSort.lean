import ClassSort.ClassList.Sort

/-!
# Sorting by rank is a stable sort

Sorting by insertion gives what the library's merge sort gives, if the order is total and
transitive, so all that is known of the one holds of the other. The order of ranks is, and so
`sortBy` sorts and keeps items of one rank in the order in which they came. `StablySorted` says
so without mentioning how it is done: the same items, no item before one of smaller rank, and
for each rank the items of that rank in their old order. There is only one such list, which is
why sorting it again changes nothing.
-/

namespace ClassSort

/-! ## Insertion -/

section Insertion

variable {α : Type} {le : α → α → Bool}

theorem insertBy_perm (a : α) (l : List α) : (insertBy le a l).Perm (a :: l) := by
  induction l with
  | nil => exact .refl _
  | cons b l ih =>
      rw [insertBy]
      split
      · exact .refl _
      · exact (ih.cons b).trans (.swap a b l)

theorem stableSort_perm (le : α → α → Bool) (l : List α) : (stableSort le l).Perm l := by
  induction l with
  | nil => exact .refl _
  | cons a l ih => exact (insertBy_perm a _).trans (ih.cons a)

/-- An item goes behind all that it must not stand before. -/
theorem insertBy_append {a : α} {front back : List α} (hfront : ∀ b ∈ front, le a b = false)
    (hback : ∀ b ∈ back.head?, le a b = true) :
    insertBy le a (front ++ back) = front ++ a :: back := by
  induction front with
  | nil =>
      cases back with
      | nil => rfl
      | cons b back => exact if_pos (hback b rfl)
  | cons b front ih =>
      obtain ⟨hb, hrest⟩ := List.forall_mem_cons.mp hfront
      rw [List.cons_append, insertBy, hb, ih hrest]
      rfl

/-- **Insertion and merging give the same list.** -/
theorem stableSort_eq_mergeSort (trans : ∀ a b c, le a b → le b c → le a c)
    (total : ∀ a b, (le a b || le b a) = true) (l : List α) :
    stableSort le l = l.mergeSort le := by
  induction l with
  | nil => exact List.mergeSort_nil.symm
  | cons a l ih =>
      obtain ⟨front, back, hcons, hrest, hfront⟩ := List.mergeSort_cons trans total a l
      have hsorted := List.pairwise_mergeSort trans total (a :: l)
      rw [hcons] at hsorted ⊢
      have hback := (List.pairwise_cons.mp (List.pairwise_append.mp hsorted).2.1).1
      show insertBy le a (stableSort le l) = _
      rw [ih, hrest]
      refine insertBy_append (fun b hb => by simpa using hfront b hb) fun b hb => ?_
      exact hback b (List.mem_of_mem_head? hb)

/-- A list in order stays as it is. -/
theorem stableSort_of_pairwise {l : List α} (h : l.Pairwise fun a b => le a b = true) :
    stableSort le l = l := by
  induction l with
  | nil => rfl
  | cons a l ih =>
      obtain ⟨hfirst, hrest⟩ := List.pairwise_cons.mp h
      show insertBy le a (stableSort le l) = a :: l
      rw [ih hrest]
      have hnone : ∀ b ∈ ([] : List α), le a b = false := List.forall_mem_nil _
      exact insertBy_append hnone fun b hb => hfirst b (List.mem_of_mem_head? hb)

theorem pairwise_stableSort (trans : ∀ a b c, le a b → le b c → le a c)
    (total : ∀ a b, (le a b || le b a) = true) (l : List α) :
    (stableSort le l).Pairwise fun a b => le a b = true := by
  rw [stableSort_eq_mergeSort trans total]
  exact List.pairwise_mergeSort trans total l

end Insertion

/-! ## The order of ranks -/

instance : Std.TransOrd VariantOrder :=
  inferInstanceAs (Std.TransCmp (compareOn fun v : VariantOrder => v.bits))

instance : Std.TransOrd SortKey :=
  inferInstanceAs (Std.TransCmp (compareLex _ _))

theorem Rank.le_refl (a : Rank) : Rank.le a a = true := by
  cases a with
  | none => rfl
  | some k =>
      have hself : compare k k = .eq := Std.ReflCmp.compare_self
      show (compare k k).isLE = true
      rw [hself]
      rfl

theorem Rank.le_trans {a b c : Rank} (hab : Rank.le a b = true) (hbc : Rank.le b c = true) :
    Rank.le a c = true := by
  cases a with
  | none => rfl
  | some i =>
      cases b with
      | none => exact absurd hab (by simp [Rank.le])
      | some j =>
          cases c with
          | none => exact absurd hbc (by simp [Rank.le])
          | some k => exact Std.TransCmp.isLE_trans hab hbc

theorem Rank.le_total (a b : Rank) : (Rank.le a b || Rank.le b a) = true := by
  cases a with
  | none => rfl
  | some i =>
      cases b with
      | none => rfl
      | some j =>
          have hswap : compare j i = (compare i j).swap := Std.OrientedCmp.eq_swap
          show ((compare i j).isLE || (compare j i).isLE) = true
          rw [hswap]
          cases compare i j <;> rfl

/-- A recognized class never stands before an unrecognized one. -/
theorem Rank.eq_none_of_le_none {a : Rank} (h : Rank.le a none = true) : a = none := by
  cases a with
  | none => rfl
  | some k => exact absurd h (by simp [Rank.le])

namespace ClassList

variable {α : Type}

/-- `sorted` is `items` put in the order of `rank`, items of one rank in their old order. -/
structure StablySorted (rank : α → Rank) (items sorted : List α) : Prop where
  /-- The same items. -/
  perm : sorted.Perm items
  /-- None of them stands before one of smaller rank. -/
  ordered : sorted.Pairwise fun a b => Rank.le (rank a) (rank b) = true
  /-- Those of one rank stand as they stood. -/
  stable : ∀ k, (sorted.filter fun a => rank a = k) = items.filter fun a => rank a = k

/-! ## What `sortBy` does -/

/-- Ranks are computed once, but that makes no difference to the order. -/
theorem sortBy_eq_mergeSort (rank : α → Rank) (items : List α) :
    sortBy rank items = items.mergeSort fun a b => Rank.le (rank a) (rank b) := by
  have hdecorate : (items.map fun a => (rank a, a)).mergeSort (fun a b => Rank.le a.1 b.1) =
      (items.mergeSort fun a b => Rank.le (rank a) (rank b)).map fun a => (rank a, a) :=
    (List.map_mergeSort (f := fun a => (rank a, a)) (fun _ _ _ _ => rfl)).symm
  unfold sortBy
  rw [stableSort_eq_mergeSort (fun a b c => Rank.le_trans (b := b.1))
    (fun a b => Rank.le_total a.1 b.1), hdecorate, List.map_map]
  exact List.map_id _

/-- It does not matter whether items are sorted or what they become. -/
theorem sortBy_map {β : Type} (rank : β → Rank) (f : α → β) (items : List α) :
    sortBy rank (items.map f) = (sortBy (fun a => rank (f a)) items).map f := by
  rw [sortBy_eq_mergeSort, sortBy_eq_mergeSort]
  exact (List.map_mergeSort (f := f) fun _ _ _ _ => rfl).symm

@[simp] theorem sortBy_nil (rank : α → Rank) : sortBy rank [] = [] := rfl

theorem sortBy_perm (rank : α → Rank) (items : List α) : (sortBy rank items).Perm items := by
  rw [sortBy_eq_mergeSort]
  exact List.mergeSort_perm _ _

theorem length_sortBy (rank : α → Rank) (items : List α) :
    (sortBy rank items).length = items.length := (sortBy_perm rank items).length_eq

theorem pairwise_sortBy (rank : α → Rank) (items : List α) :
    (sortBy rank items).Pairwise fun a b => Rank.le (rank a) (rank b) = true := by
  rw [sortBy_eq_mergeSort]
  exact List.pairwise_mergeSort (fun a b c => Rank.le_trans (b := rank b))
    (fun a b => Rank.le_total (rank a) (rank b)) items

/-- Items of one rank are in order as they stand, so they come out as they went in. -/
theorem filter_sortBy (rank : α → Rank) (items : List α) (k : Rank) :
    ((sortBy rank items).filter fun a => rank a = k) = items.filter fun a => rank a = k := by
  have htied : (items.filter fun a => rank a = k).Pairwise
      fun a b => Rank.le (rank a) (rank b) = true := by
    refine List.pairwise_of_forall_mem_list ?_
    intro a ha b hb
    have hak : rank a = k := by simpa using (List.mem_filter.mp ha).2
    have hbk : rank b = k := by simpa using (List.mem_filter.mp hb).2
    rw [hak, hbk]
    exact Rank.le_refl k
  have hsub : (items.filter fun a => rank a = k).Sublist (sortBy rank items) := by
    rw [sortBy_eq_mergeSort]
    exact List.sublist_mergeSort (fun a b c => Rank.le_trans (b := rank b))
      (fun a b => Rank.le_total (rank a) (rank b)) htied List.filter_sublist
  have hfil := hsub.filter fun a => rank a = k
  rw [List.filter_filter] at hfil
  simp only [Bool.and_self] at hfil
  have hlen := ((sortBy_perm rank items).filter fun a => rank a = k).length_eq
  exact (hfil.eq_of_length hlen.symm).symm

/-- **`sortBy` is a stable sort.** -/
theorem stablySorted_sortBy (rank : α → Rank) (items : List α) :
    StablySorted rank items (sortBy rank items) :=
  ⟨sortBy_perm rank items, pairwise_sortBy rank items, filter_sortBy rank items⟩

/-- What is in order stays as it is. -/
theorem sortBy_of_ordered {rank : α → Rank} {items : List α}
    (h : items.Pairwise fun a b => Rank.le (rank a) (rank b) = true) :
    sortBy rank items = items := by
  rw [sortBy_eq_mergeSort]
  exact List.mergeSort_of_pairwise h

theorem sortBy_sortBy (rank : α → Rank) (items : List α) :
    sortBy rank (sortBy rank items) = sortBy rank items :=
  sortBy_of_ordered (pairwise_sortBy rank items)

/-! ## Unrecognized items -/

/-- In an ordered list everything unrecognized is in front. -/
theorem unrecognized_in_front {rank : α → Rank} {l : List α}
    (h : l.Pairwise fun a b => Rank.le (rank a) (rank b) = true) :
    l = (l.filter fun a => rank a = none) ++ l.filter fun a => rank a ≠ none := by
  induction l with
  | nil => rfl
  | cons a l ih =>
      rw [List.pairwise_cons] at h
      by_cases ha : rank a = none
      · have hrest := ih h.2
        simp only [ha, decide_true, List.filter_cons_of_pos, ne_eq, not_true_eq_false,
          decide_false, Bool.false_eq_true, not_false_eq_true, List.filter_cons_of_neg,
          List.cons_append]
        exact congrArg (a :: ·) hrest
      · -- nothing behind a recognized item is unrecognized
        have hnone : ∀ b ∈ l, rank b ≠ none := by
          intro b hb hbn
          have hab := h.1 b hb
          rw [hbn] at hab
          exact ha (Rank.eq_none_of_le_none hab)
        have hfront : (l.filter fun a => rank a = none) = [] := by
          rw [List.filter_eq_nil_iff]
          intro b hb
          simpa using hnone b hb
        have hback : (l.filter fun a => rank a ≠ none) = l := by
          rw [List.filter_eq_self]
          intro b hb
          simpa using hnone b hb
        rw [List.filter_cons_of_neg (by simpa using ha), List.filter_cons_of_pos (by simpa using ha),
          hfront, hback]
        rfl

/-- **Unrecognized items lead, in the order in which they came.** -/
theorem StablySorted.unrecognized {rank : α → Rank} {items sorted : List α}
    (h : StablySorted rank items sorted) :
    sorted = (items.filter fun a => rank a = none) ++ sorted.filter fun a => rank a ≠ none := by
  have hsplit := unrecognized_in_front h.ordered
  rwa [h.stable none] at hsplit

end ClassList

end ClassSort
