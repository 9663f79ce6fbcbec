import ClassSort.Proofs.SortedList

/-!
# The order of a sorted list does not depend on how it was typed

A stable sort leaves one freedom: items of one rank come out as they came in. Two lists
that agree on that, rank by rank, therefore come out the same. The argument is short once
the order of ranks is known to be *antisymmetric*: ranks that may stand in either order
are the same rank, so of two ordered lists with the same items of each rank the first
items have one rank, and then they are one item.

Where all ranks are different there is nothing left to agree on. Any two ways to type
such a class list, with the same blanks around it, are rewritten to the same text.
-/

namespace ClassSort

/-! ## Ranks that tie are equal -/

theorem Layer.index_inj {a b : Layer} (h : a.index = b.index) : a = b := by
  cases a <;> cases b <;> first | rfl | exact absurd h (by decide)

theorem SortKey.eq_of_compare_eq {a b : SortKey} (h : compare a b = .eq) : a = b := by
  obtain ⟨⟨bits⟩, layer, family, rule⟩ := a
  obtain ⟨⟨bits'⟩, layer', family', rule'⟩ := b
  have hlex : (compare bits bits').then ((compare layer.index layer'.index).then
      ((compare family family').then (compare rule rule'))) = .eq := h
  simp only [Ordering.then_eq_eq, Std.LawfulEqCmp.compare_eq_iff_eq] at hlex
  obtain ⟨rfl, hlayer, rfl, rfl⟩ := hlex
  rw [Layer.index_inj hlayer]

theorem Rank.le_antisymm {a b : Rank} (hab : Rank.le a b = true) (hba : Rank.le b a = true) :
    a = b := by
  cases b with
  | none => exact Rank.eq_none_of_le_none hab
  | some j =>
      cases a with
      | none => exact absurd (Rank.eq_none_of_le_none hba) (by simp)
      | some i =>
          have hij : compare i j = .eq := Std.OrientedCmp.isLE_antisymm hab hba
          rw [SortKey.eq_of_compare_eq hij]

namespace ClassList

variable {α : Type}

/-! ## Only one list is stably sorted -/

/-- What stands first in an ordered list has the smallest rank in it. -/
theorem le_of_ordered_cons {rank : α → Rank} {a b : α} {l : List α}
    (h : (a :: l).Pairwise fun a b => Rank.le (rank a) (rank b) = true) (hb : b ∈ a :: l) :
    Rank.le (rank a) (rank b) = true := by
  rcases List.mem_cons.mp hb with rfl | hb
  · exact Rank.le_refl _
  · exact (List.pairwise_cons.mp h).1 b hb

/-- An item is where the items of its rank are. -/
theorem mem_of_filter_eq {rank : α → Rank} {l m : List α}
    (h : ∀ k, (l.filter fun a => rank a = k) = m.filter fun a => rank a = k) {a : α}
    (ha : a ∈ l) : a ∈ m := by
  have hfil : a ∈ l.filter fun b => rank b = rank a := List.mem_filter.mpr ⟨ha, by simp⟩
  rw [h] at hfil
  exact (List.mem_filter.mp hfil).1

/-- **Ordered lists with the same items of each rank are equal.** -/
theorem eq_of_ordered {rank : α → Rank} {l m : List α}
    (hl : l.Pairwise fun a b => Rank.le (rank a) (rank b) = true)
    (hm : m.Pairwise fun a b => Rank.le (rank a) (rank b) = true)
    (h : ∀ k, (l.filter fun a => rank a = k) = m.filter fun a => rank a = k) : l = m := by
  induction l generalizing m with
  | nil =>
      cases m with
      | nil => rfl
      | cons b m =>
          have hb := mem_of_filter_eq (fun k => (h k).symm) (List.mem_cons_self (a := b) (l := m))
          exact absurd hb (by simp)
  | cons a l ih =>
      cases m with
      | nil =>
          have ha := mem_of_filter_eq h (List.mem_cons_self (a := a) (l := l))
          exact absurd ha (by simp)
      | cons b m =>
          -- each head is in the other list too, so neither rank is smaller
          have hab := le_of_ordered_cons hl
            (mem_of_filter_eq (fun k => (h k).symm) (List.mem_cons_self (a := b) (l := m)))
          have hba := le_of_ordered_cons hm
            (mem_of_filter_eq h (List.mem_cons_self (a := a) (l := l)))
          have hrank : rank a = rank b := Rank.le_antisymm hab hba
          have hheads := h (rank a)
          rw [List.filter_cons_of_pos (by simp), List.filter_cons_of_pos (by simp [hrank])]
            at hheads
          obtain ⟨rfl, htails⟩ := List.cons.inj hheads
          refine congrArg (a :: ·) (ih (List.pairwise_cons.mp hl).2 (List.pairwise_cons.mp hm).2 ?_)
          intro k
          by_cases hk : rank a = k
          · rw [← hk]
            exact htails
          · have hrest := h k
            rw [List.filter_cons_of_neg (by simpa using hk),
              List.filter_cons_of_neg (by simpa using hk)] at hrest
            exact hrest

theorem StablySorted.unique {rank : α → Rank} {items items' sorted sorted' : List α}
    (h : StablySorted rank items sorted) (h' : StablySorted rank items' sorted')
    (hsame : ∀ k, (items.filter fun a => rank a = k) = items'.filter fun a => rank a = k) :
    sorted = sorted' := by
  refine eq_of_ordered h.ordered h'.ordered ?_
  intro k
  rw [h.stable k, h'.stable k]
  exact hsame k

/-- Items with ranks of their own have no order among the items of one rank. -/
theorem filter_eq_of_distinct {rank : α → Rank} {l m : List α} (h : l.Perm m)
    (hl : l.Pairwise fun a b => rank a ≠ rank b) (k : Rank) :
    (l.filter fun a => rank a = k) = m.filter fun a => rank a = k := by
  have hperm := h.filter fun a => rank a = k
  have hdistinct := hl.sublist (List.filter_sublist (p := fun a => rank a = k))
  have hrank : ∀ a ∈ l.filter fun a => rank a = k, rank a = k := by
    intro a ha
    simpa using (List.mem_filter.mp ha).2
  -- two of them would have the same rank
  match hfil : l.filter fun a => rank a = k with
  | [] =>
      rw [hfil] at hperm
      exact hperm.nil_eq
  | [a] =>
      rw [hfil] at hperm
      exact (List.perm_singleton.mp hperm.symm).symm
  | a :: b :: rest =>
      rw [hfil] at hdistinct hrank
      have hne := (List.pairwise_cons.mp hdistinct).1 b (by simp)
      exact absurd ((hrank a (by simp)).trans (hrank b (by simp)).symm) hne

/-! ## Class lists -/

theorem map_text_sortTokens (r : Ranking) (ts : List Token) :
    (sortTokens r ts).map (·.text) = sortBy r (ts.map (·.text)) := by
  unfold sortTokens
  exact (sortBy_map r (·.text) ts).symm

/-- With no end fixed, all pieces are free. -/
theorem partitioned_free (ps : List Piece) : Partitioned {} ps [] ps [] := ⟨by simp, rfl, rfl⟩

/-- What a list becomes depends on its outer blanks and its sorted words alone. -/
theorem sort_congr {r : Ranking} {v w : Text} (hv : Text.includes interpolationMark v = false)
    (hw : Text.includes interpolationMark w = false)
    (hleading : (divide v).leading = (divide w).leading)
    (htrailing : lastGap (divide v).pieces = lastGap (divide w).pieces)
    (hwords : sortBy r ((divide v).pieces.map (·.word)) =
      sortBy r ((divide w).pieces.map (·.word))) :
    sort r {} v = sort r {} w := by
  rw [sort_eq_text hv (partitioned_free _), sort_eq_text hw (partitioned_free _), hleading]
  unfold sortFree
  rw [hwords, htrailing]

/--
**Canonical order.**

Two token lists with the same texts, in which the texts of each rank stand in the same
order, are sorted to the same sequence of texts. So a class list in which every class has
a rank of its own is rewritten to one text, in whatever order its classes were typed, as
long as the blanks around it are the same.
-/
theorem sort_of_any_order (r : Ranking) :
    (∀ ts us : List Token, (ts.map (·.text)).Perm (us.map (·.text)) →
      (∀ k : Rank, ((ts.map (·.text)).filter fun w => r w = k) =
        (us.map (·.text)).filter fun w => r w = k) →
      (sortTokens r ts).map (·.text) = (sortTokens r us).map (·.text)) ∧
    (∀ v w : Text, Text.includes interpolationMark v = false →
      Text.includes interpolationMark w = false →
      (divide v).leading = (divide w).leading →
      lastGap (divide v).pieces = lastGap (divide w).pieces →
      ((tokens v).map (·.text)).Perm ((tokens w).map (·.text)) →
      ((tokens v).map (·.text)).Pairwise (fun a b => r a ≠ r b) →
      sort r {} v = sort r {} w) := by
  have hunique : ∀ ws ws' : List Text,
      (∀ k : Rank, (ws.filter fun w => r w = k) = ws'.filter fun w => r w = k) →
      sortBy r ws = sortBy r ws' := fun ws ws' =>
    (stablySorted_sortBy r ws).unique (stablySorted_sortBy r ws')
  refine ⟨?_, ?_⟩
  · intro ts us _ hsame
    rw [map_text_sortTokens, map_text_sortTokens]
    exact hunique _ _ hsame
  · intro v w hv hw hleading htrailing hperm hdistinct
    rw [map_text_tokens] at hdistinct
    rw [map_text_tokens, map_text_tokens] at hperm
    exact sort_congr hv hw hleading htrailing
      (hunique _ _ (filter_eq_of_distinct hperm hdistinct))

/-- Two token lists in which quotes make a tie, and two ways to type three classes with
uneven blanks between them. In both, some classes are not recognized. -/
theorem sort_of_any_order_ties :
    (sortTokens (Ranking.ofNames ["a".toList, "b".toList]).ofSource
        [⟨"b".toList, 0⟩, ⟨"y".toList, 2⟩, ⟨"a".toList, 4⟩, ⟨"'b'".toList, 6⟩, ⟨"x".toList, 10⟩]).map
          (·.text) =
      (sortTokens (Ranking.ofNames ["a".toList, "b".toList]).ofSource
        [⟨"y".toList, 0⟩, ⟨"x".toList, 3⟩, ⟨"b".toList, 5⟩, ⟨"'b'".toList, 7⟩, ⟨"a".toList, 11⟩]).map
          (·.text) ∧
    sort (Ranking.ofNames ["a".toList, "b".toList]).ofSource {} " b\t a  x\n".toList =
      sort (Ranking.ofNames ["a".toList, "b".toList]).ofSource {} " x b a\n".toList := by
  obtain ⟨htokens, hlists⟩ := sort_of_any_order (Ranking.ofNames ["a".toList, "b".toList]).ofSource
  refine ⟨htokens _ _ (by decide) ?_, hlists _ _ (by decide) (by decide) (by decide) (by decide)
    (by decide) (by decide)⟩
  intro k
  by_cases hnone : none = k
  · subst hnone
    decide
  · by_cases ha : some (SortKey.ordinal 0) = k
    · subst ha
      decide
    · by_cases hb : some (SortKey.ordinal 1) = k
      · subst hb
        decide
      · -- no other rank occurs
        have hnames : ∀ w ∈ ["a".toList, "b".toList, "'b'".toList, "x".toList, "y".toList],
            (Ranking.ofNames ["a".toList, "b".toList]).ofSource w ≠ k := by
          have hranks : ["a".toList, "b".toList, "'b'".toList, "x".toList, "y".toList].map
              (Ranking.ofNames ["a".toList, "b".toList]).ofSource =
                [some (.ordinal 0), some (.ordinal 1), some (.ordinal 1), none, none] := by decide
          intro w hw heq
          have hmem := List.mem_map_of_mem
            (f := (Ranking.ofNames ["a".toList, "b".toList]).ofSource) hw
          rw [hranks, heq] at hmem
          simp only [List.mem_cons, List.not_mem_nil, or_false] at hmem
          rcases hmem with h | h | h | h | h
          · exact ha h.symm
          · exact hb h.symm
          · exact hb h.symm
          · exact hnone h.symm
          · exact hnone h.symm
        rw [List.filter_eq_nil_iff.mpr, List.filter_eq_nil_iff.mpr]
        · intro w hw
          simpa using hnames w (by revert w; decide)
        · intro w hw
          simpa using hnames w (by revert w; decide)

end ClassList

end ClassSort
