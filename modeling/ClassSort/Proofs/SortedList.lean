import ClassSort.Proofs.Division
import ClassSort.Proofs.StableSort

/-!
# The layout of a sorted class list

`ClassList.sort` writes its result piece by piece. Here the result is recognized as the
text of a proper division, so that its words and gaps are known without dividing it
again: the words that keep their place with the blanks behind them, and between them the
sorted words with single spaces. Behind the last sorted word stand the blanks that stood
behind the last word of the sorted part before, be it in front of a fixed word or at the
end of the list. That one rule covers all four ways to fix the ends and all short lists.

A list that has been sorted has this layout already, which gives idempotence. The lists that have
it, `Tidy`, are exactly those that sorting leaves alone.
-/

namespace ClassSort.ClassList

/-! ## The fixed words and the others -/

/-- `ps` is taken apart into what keeps its place in front, what is sorted, and what keeps
its place at the end. A lone piece is kept once. -/
structure Partitioned (ends : FixedEnds) (ps head free tail : List Piece) : Prop where
  eq : ps = head ++ free ++ tail
  head_length : head.length = if ends.first then min 1 ps.length else 0
  tail_length : tail.length = if ends.last then min 1 (ps.length - head.length) else 0

theorem partitioned_partition (ends : FixedEnds) (ps : List Piece) :
    Partitioned ends ps (partition ends ps).1 (partition ends ps).2.1 (partition ends ps).2.2 := by
  have hhead : ∀ h : List Piece, h = (if ends.first then ps.take 1 else []) →
      ps = h ++ ps.drop h.length ∧ h.length = if ends.first then min 1 ps.length else 0 := by
    rintro h rfl
    split
    · cases ps <;> simp
    · simp
  have hrest : ∀ rest : List Piece,
      rest = rest.dropLast ++ rest.drop (rest.length - 1) ∧
        (rest.drop (rest.length - 1)).length = min 1 rest.length := by
    intro rest
    refine ⟨?_, by rw [List.length_drop]; omega⟩
    rw [List.dropLast_eq_take, List.take_append_drop]
  obtain ⟨heq, hlen⟩ := hhead _ rfl
  unfold partition
  dsimp only
  split
  · rename_i hlast
    obtain ⟨hsplit, hone⟩ := hrest (ps.drop (if ends.first then ps.take 1 else []).length)
    refine ⟨?_, hlen, ?_⟩
    · dsimp only
      rw [List.append_assoc, ← hsplit, ← heq]
    · dsimp only
      rw [hone, List.length_drop, if_pos hlast]
  · rename_i hlast
    refine ⟨?_, hlen, ?_⟩
    · dsimp only
      rw [List.append_nil, ← heq]
    · rw [if_neg hlast]
      rfl

theorem exists_partitioned (ends : FixedEnds) (ps : List Piece) :
    ∃ head free tail, Partitioned ends ps head free tail :=
  ⟨_, _, _, partitioned_partition ends ps⟩

/-- The two lengths settle the parts. -/
theorem Partitioned.partition_eq {ends : FixedEnds} {ps head free tail : List Piece}
    (h : Partitioned ends ps head free tail) : partition ends ps = (head, free, tail) := by
  have h' := partitioned_partition ends ps
  rcases hp : partition ends ps with ⟨head', free', tail'⟩
  rw [hp] at h'
  dsimp only at h'
  have hheads : head.length = head'.length := by rw [h.head_length, h'.head_length]
  have htails : tail.length = tail'.length := by rw [h.tail_length, h'.tail_length, hheads]
  have heq : head ++ free ++ tail = head' ++ free' ++ tail' := by rw [← h.eq, ← h'.eq]
  obtain ⟨hfront, rfl⟩ := List.append_inj' heq htails
  obtain ⟨rfl, rfl⟩ := List.append_inj hfront hheads
  rfl

theorem Partitioned.head_le {ends : FixedEnds} {ps head free tail : List Piece}
    (h : Partitioned ends ps head free tail) : head.length ≤ 1 := by
  rw [h.head_length]
  split <;> omega

theorem Partitioned.tail_le {ends : FixedEnds} {ps head free tail : List Piece}
    (h : Partitioned ends ps head free tail) : tail.length ≤ 1 := by
  rw [h.tail_length]
  split <;> omega

/-- Other pieces may take the place of the free ones. -/
theorem Partitioned.replace {ends : FixedEnds} {ps head free tail free' : List Piece}
    (h : Partitioned ends ps head free tail) (hlen : free'.length = free.length) :
    Partitioned ends (head ++ free' ++ tail) head free' tail := by
  have hps : (head ++ free' ++ tail).length = ps.length := by
    rw [h.eq]
    simp [hlen]
  exact ⟨rfl, by rw [hps]; exact h.head_length, by rw [hps]; exact h.tail_length⟩

/-! ## Words with single spaces between them -/

/-- The words as pieces, with a space behind each but the last and `last` behind that. -/
def respace (last : Text) : List Text → List Piece
  | [] => []
  | [w] => [⟨w, last⟩]
  | w :: w' :: ws => ⟨w, [' ']⟩ :: respace last (w' :: ws)

theorem map_word_respace (g : Text) (ws : List Text) : (respace g ws).map (·.word) = ws := by
  induction ws with
  | nil => rfl
  | cons w ws ih =>
      cases ws with
      | nil => rfl
      | cons w' ws => rw [respace, List.map_cons, ih]

theorem length_respace (g : Text) (ws : List Text) : (respace g ws).length = ws.length := by
  rw [← List.length_map (f := fun p : Piece => p.word), map_word_respace]

theorem respace_ne_nil {g : Text} {ws : List Text} (h : ws ≠ []) : respace g ws ≠ [] := by
  intro hnil
  have hlen := length_respace g ws
  rw [hnil] at hlen
  exact h (List.length_eq_zero_iff.mp hlen.symm)

theorem text_respace (g : Text) {ws : List Text} (h : ws ≠ []) :
    (respace g ws).flatMap (fun p => p.word ++ p.gap) = Text.join [' '] ws ++ g := by
  induction ws with
  | nil => exact absurd rfl h
  | cons w ws ih =>
      cases ws with
      | nil => simp [respace, Text.join, List.intercalate]
      | cons w' ws =>
          rw [respace, List.flatMap_cons, ih (by simp)]
          simp [Text.join, List.intercalate, List.intersperse]

theorem lastGap_respace (g : Text) {ws : List Text} (h : ws ≠ []) :
    lastGap (respace g ws) = g := by
  induction ws with
  | nil => exact absurd rfl h
  | cons w ws ih =>
      cases ws with
      | nil => rfl
      | cons w' ws =>
          have hne : respace g (w' :: ws) ≠ [] := respace_ne_nil (by simp)
          obtain ⟨p, ps, hps⟩ := List.exists_cons_of_ne_nil hne
          rw [respace, hps]
          show lastGap (p :: ps) = g
          rw [← hps]
          exact ih (by simp)

theorem gap_dropLast_respace (g : Text) (ws : List Text) :
    ∀ p ∈ (respace g ws).dropLast, p.gap = [' '] := by
  induction ws with
  | nil => intro p hp; exact absurd hp (by simp [respace])
  | cons w ws ih =>
      cases ws with
      | nil => intro p hp; exact absurd hp (by simp [respace])
      | cons w' ws =>
          intro p hp
          rw [respace, List.dropLast_cons_of_ne_nil (respace_ne_nil (by simp))] at hp
          rcases List.mem_cons.mp hp with rfl | hp
          · rfl
          · exact ih p hp

theorem parted_respace {g : Text} {ws : List Text} (hws : ∀ w ∈ ws, IsWord w) (hg : IsGap g) :
    Parted (respace g ws) := by
  induction ws with
  | nil => trivial
  | cons w ws ih =>
      have hw : IsWord w := hws w (by simp)
      have hrest := ih (fun v hv => hws v (List.mem_cons_of_mem w hv))
      cases ws with
      | nil => exact ⟨hw, hg, fun h => absurd rfl h, trivial⟩
      | cons w' ws => exact ⟨hw, isGap_space, fun _ => by simp, hrest⟩

/-! ## The sorted part -/

@[simp] theorem lastGap_nil : lastGap [] = [] := rfl

theorem lastGap_append {ps qs : List Piece} (h : qs ≠ []) : lastGap (ps ++ qs) = lastGap qs := by
  unfold lastGap
  rw [List.getLast?_append]
  cases hlast : qs.getLast? with
  | none => exact absurd (List.getLast?_eq_none_iff.mp hlast) h
  | some q => rfl

theorem isGap_lastGap {ps : List Piece} (h : Parted ps) : IsGap (lastGap ps) := by
  unfold lastGap
  cases hlast : ps.getLast? with
  | none => exact isGap_nil
  | some p => exact h.gap p (List.mem_of_getLast? hlast)

/-- What the free pieces become. -/
def sortFree (r : Ranking) (free : List Piece) : List Piece :=
  respace (lastGap free) (sortBy r (free.map (·.word)))

theorem map_word_sortFree (r : Ranking) (free : List Piece) :
    (sortFree r free).map (·.word) = sortBy r (free.map (·.word)) := map_word_respace _ _

theorem length_sortFree (r : Ranking) (free : List Piece) :
    (sortFree r free).length = free.length := by
  unfold sortFree
  rw [length_respace, length_sortBy, List.length_map]

theorem sortFree_eq_nil {r : Ranking} {free : List Piece} : sortFree r free = [] ↔ free = [] := by
  rw [← List.length_eq_zero_iff, length_sortFree, List.length_eq_zero_iff]

theorem sortBy_words_ne_nil {r : Ranking} {free : List Piece} (h : free ≠ []) :
    sortBy r (free.map (·.word)) ≠ [] := by
  rw [← map_word_sortFree]
  intro hnil
  exact h (sortFree_eq_nil.mp (List.map_eq_nil_iff.mp hnil))

/-- The blanks behind the sorted part are those behind the free pieces. -/
theorem lastGap_sortFree (r : Ranking) (free : List Piece) :
    lastGap (sortFree r free) = lastGap free := by
  by_cases hfree : free = []
  · rw [hfree, sortFree_eq_nil.mpr rfl]
  · exact lastGap_respace _ (sortBy_words_ne_nil hfree)

theorem parted_sortFree {r : Ranking} {free : List Piece} (h : Parted free) :
    Parted (sortFree r free) := by
  refine parted_respace ?_ (isGap_lastGap h)
  intro w hw
  obtain ⟨p, hp, rfl⟩ := List.mem_map.mp ((sortBy_perm r _).mem_iff.mp hw)
  exact h.word p hp

theorem text_sortFree {r : Ranking} {free : List Piece} (h : free ≠ []) :
    (sortFree r free).flatMap (fun p => p.word ++ p.gap) =
      Text.join [' '] (sortBy r (free.map (·.word))) ++ lastGap free :=
  text_respace _ (sortBy_words_ne_nil h)

theorem sortFree_sortFree (r : Ranking) (free : List Piece) :
    sortFree r (sortFree r free) = sortFree r free := by
  show respace (lastGap (sortFree r free)) (sortBy r ((sortFree r free).map (·.word))) = _
  rw [lastGap_sortFree, map_word_sortFree, sortBy_sortBy]
  rfl

/-! ## The result of sorting as a division -/

/-- A part with one piece at most ends with the blanks behind that piece. -/
theorem text_of_length_le_one {ps : List Piece} (h : ps.length ≤ 1) :
    ps.flatMap (fun p => p.word ++ p.gap) = ps.flatMap (·.word) ++ lastGap ps := by
  match ps with
  | [] => rfl
  | [p] => simp [lastGap]
  | p :: q :: ps => simp at h

/-- What is written is the text of the sorted pieces between the fixed ones. -/
theorem sort_eq_text {r : Ranking} {ends : FixedEnds} {value : Text} {head free tail : List Piece}
    (hmark : Text.includes interpolationMark value = false)
    (hp : Partitioned ends (divide value).pieces head free tail) :
    sort r ends value =
      Division.text ⟨(divide value).leading, head ++ sortFree r free ++ tail⟩ := by
  unfold sort Division.text
  rw [if_neg (by simp [hmark])]
  dsimp only
  rw [hp.partition_eq]
  dsimp only
  rw [hp.eq]
  simp only [List.flatMap_append, text_of_length_le_one hp.head_le,
    text_of_length_le_one hp.tail_le, List.append_assoc]
  refine congrArg ((divide value).leading ++ ·) (congrArg (head.flatMap (·.word) ++ ·) ?_)
  by_cases hfree : free = []
  · -- no space is written, and the fixed words keep the gap between them
    subst hfree
    rw [sortFree_eq_nil.mpr rfl]
    by_cases htail : tail = []
    · simp [htail, Text.join, List.intercalate]
    · simp [htail, Text.join, List.intercalate, lastGap_append htail]
  · rw [text_sortFree hfree]
    by_cases htail : tail = []
    · simp [htail, hfree, lastGap_append hfree]
    · have hback : free ++ tail ≠ [] := by simp [htail]
      simp [htail, hfree, lastGap_append hback, lastGap_append htail]

/-- The sorted pieces do not run together with the fixed ones. -/
theorem parted_sorted {r : Ranking} {head free tail : List Piece}
    (h : Parted (head ++ free ++ tail)) : Parted (head ++ sortFree r free ++ tail) := by
  obtain ⟨hfront, htail, hseam⟩ := parted_append.mp h
  obtain ⟨hhead, hfree, hseam'⟩ := parted_append.mp hfront
  by_cases hnil : free = []
  · rw [hnil] at h
    rw [hnil, sortFree_eq_nil.mpr rfl]
    exact h
  · have hnil' : sortFree r free ≠ [] := fun h₀ => hnil (sortFree_eq_nil.mp h₀)
    -- both seams keep their blanks, because the last gap of the free part does not move
    refine parted_append.mpr ⟨parted_append.mpr ⟨hhead, parted_sortFree hfree, ?_⟩, htail, ?_⟩
    · exact fun h₁ _ => hseam' h₁ hnil
    · intro _ h₂
      rw [lastGap_append hnil', lastGap_sortFree, ← lastGap_append hnil]
      exact hseam (by simp [hnil]) h₂

/-- **Dividing the result gives back what was written.** -/
theorem divide_sort {r : Ranking} {ends : FixedEnds} {value : Text} {head free tail : List Piece}
    (hmark : Text.includes interpolationMark value = false)
    (hp : Partitioned ends (divide value).pieces head free tail) :
    divide (sort r ends value) = ⟨(divide value).leading, head ++ sortFree r free ++ tail⟩ := by
  rw [sort_eq_text hmark hp]
  have hproper := divide_proper value
  refine divide_text ⟨hproper.leading, ?_⟩
  have hparted := hproper.pieces
  rw [hp.eq] at hparted
  exact parted_sorted hparted

/-- The words of a sorted list are those of the list. -/
theorem words_sorted_perm (r : Ranking) (head free tail : List Piece) :
    ((head ++ sortFree r free ++ tail).map (·.word)).Perm
      ((head ++ free ++ tail).map (·.word)) := by
  simp only [List.map_append, map_word_sortFree]
  exact ((sortBy_perm r _).append_left _).append_right _

/-- A list with an interpolation in it is left alone. -/
theorem sort_of_mark {r : Ranking} {ends : FixedEnds} {value : Text}
    (h : Text.includes interpolationMark value = true) : sort r ends value = value := by
  unfold sort
  rw [if_pos h]

/-- **Sorting permutes the words of a list.** -/
theorem words_sort_perm (r : Ranking) (ends : FixedEnds) (value : Text) :
    ((divide (sort r ends value)).pieces.map (·.word)).Perm
      ((divide value).pieces.map (·.word)) := by
  cases hmark : Text.includes interpolationMark value with
  | true => rw [sort_of_mark hmark]
  | false =>
      obtain ⟨head, free, tail, hparts⟩ := exists_partitioned ends (divide value).pieces
      rw [divide_sort hmark hparts, hparts.eq]
      exact words_sorted_perm r head free tail

/-- Sorting neither makes an interpolation mark nor takes one apart. -/
theorem includes_mark_sort (r : Ranking) (ends : FixedEnds) (value : Text) :
    Text.includes interpolationMark (sort r ends value) =
      Text.includes interpolationMark value := by
  rw [Bool.eq_iff_iff, includes_mark_iff, includes_mark_iff]
  have hperm := words_sort_perm r ends value
  constructor
  · rintro ⟨p, hp, hmark⟩
    obtain ⟨q, hq, heq⟩ := List.mem_map.mp (hperm.mem_iff.mp (List.mem_map_of_mem hp))
    exact ⟨q, hq, heq ▸ hmark⟩
  · rintro ⟨p, hp, hmark⟩
    obtain ⟨q, hq, heq⟩ := List.mem_map.mp (hperm.mem_iff.mpr (List.mem_map_of_mem hp))
    exact ⟨q, hq, heq ▸ hmark⟩

/-- **Sorting is idempotent**, whichever ends are fixed. -/
theorem sort_sort (r : Ranking) (ends : FixedEnds) (value : Text) :
    sort r ends (sort r ends value) = sort r ends value := by
  cases hmark : Text.includes interpolationMark value with
  | true => rw [sort_of_mark hmark, sort_of_mark hmark]
  | false =>
      obtain ⟨head, free, tail, hparts⟩ := exists_partitioned ends (divide value).pieces
      have hdivide := divide_sort (r := r) hmark hparts
      have hmark' : Text.includes interpolationMark (sort r ends value) = false := by
        rw [includes_mark_sort, hmark]
      -- the result has the same fixed pieces, and its free part is sorted
      have hagain := hparts.replace (length_sortFree r free)
      have hpieces : (divide (sort r ends value)).pieces = head ++ sortFree r free ++ tail := by
        rw [hdivide]
      rw [← hpieces] at hagain
      rw [sort_eq_text hmark' hagain, hdivide, sortFree_sortFree, ← sort_eq_text hmark hparts]

/-! ## Lists that are left alone -/

/-- A class list that is in order already. It has an interpolation mark, or none of its free words
stands before one of smaller rank and there are single spaces between them. -/
def Tidy (r : Ranking) (ends : FixedEnds) (value : Text) : Prop :=
  Text.includes interpolationMark value = true ∨
    ∃ head free tail, Partitioned ends (divide value).pieces head free tail ∧
      (free.map (·.word)).Pairwise (fun a b => Rank.le (r a) (r b) = true) ∧
      ∀ p ∈ free.dropLast, p.gap = [' ']

theorem respace_of_spaces {ps : List Piece} (h : ∀ p ∈ ps.dropLast, p.gap = [' ']) :
    respace (lastGap ps) (ps.map (·.word)) = ps := by
  induction ps with
  | nil => rfl
  | cons p ps ih =>
      cases ps with
      | nil => rfl
      | cons q ps =>
          rw [List.dropLast_cons_of_ne_nil (by simp)] at h
          have hp : p.gap = [' '] := h p List.mem_cons_self
          have hrest := ih fun q' hq' => h q' (List.mem_cons_of_mem p hq')
          show ⟨p.word, [' ']⟩ :: respace (lastGap (q :: ps)) ((q :: ps).map (·.word)) = p :: q :: ps
          rw [hrest, ← hp]

theorem sortFree_eq_self_iff {r : Ranking} {free : List Piece} :
    sortFree r free = free ↔
      (free.map (·.word)).Pairwise (fun a b => Rank.le (r a) (r b) = true) ∧
        ∀ p ∈ free.dropLast, p.gap = [' '] := by
  constructor
  · intro h
    have hwords := map_word_sortFree r free
    rw [h] at hwords
    refine ⟨hwords ▸ pairwise_sortBy r _, ?_⟩
    rw [← h]
    exact gap_dropLast_respace _ _
  · rintro ⟨hordered, hspaces⟩
    unfold sortFree
    rw [sortBy_of_ordered hordered, respace_of_spaces hspaces]

/-- **Sorting leaves exactly the lists alone that are in order.** -/
theorem sort_eq_self_iff {r : Ranking} {ends : FixedEnds} {value : Text} :
    sort r ends value = value ↔ Tidy r ends value := by
  cases hmark : Text.includes interpolationMark value with
  | true => exact iff_of_true (sort_of_mark hmark) (.inl hmark)
  | false =>
      obtain ⟨head, free, tail, hparts⟩ := exists_partitioned ends (divide value).pieces
      have hdivide := divide_sort (r := r) hmark hparts
      have hfree : sort r ends value = value ↔ sortFree r free = free := by
        constructor
        · intro h
          have hpieces : (divide value).pieces = head ++ sortFree r free ++ tail := by
            rw [h] at hdivide
            rw [hdivide]
          rw [hparts.eq, List.append_cancel_right_eq, List.append_cancel_left_eq] at hpieces
          exact hpieces.symm
        · intro h
          rw [sort_eq_text hmark hparts, h, ← hparts.eq]
          exact text_divide value
      rw [hfree, sortFree_eq_self_iff]
      constructor
      · exact fun h => .inr ⟨head, free, tail, hparts, h⟩
      · rintro (h | ⟨head', free', tail', hparts', h⟩)
        · exact absurd (h.symm.trans hmark) (by simp)
        · -- a list has only one free part
          have heq := hparts'.partition_eq.symm.trans hparts.partition_eq
          obtain ⟨-, rfl, -⟩ : head' = head ∧ free' = free ∧ tail' = tail := by simpa using heq
          exact h

/--
**A sorted list is left alone.**

Sorting it again with the same ends fixed gives the same text. It is in order, and the lists in
order are the only ones that sorting does not change. The ranking may be any function of the words,
also one that takes quotes and backslashes off before it ranks (`Ranking.ofSource`).
-/
theorem sorted_list_is_left_alone (r : Ranking) (ends : FixedEnds) (value : Text) :
    sort r ends (sort r ends value) = sort r ends value ∧
    Tidy r ends (sort r ends value) ∧
    (sort r ends value = value ↔ Tidy r ends value) := by
  have hagain := sort_sort r ends value
  exact ⟨hagain, sort_eq_self_iff.mp hagain, sort_eq_self_iff⟩

/-! ## The layout, stated for a reader of the result -/

/-- How a class list `out` comes from `value`. The pieces of `head` and `tail` keep their
words, their places and the blanks behind them; those of `free` are put in order. -/
structure SortedFrom (r : Ranking) (ends : FixedEnds) (value out : Text)
    (head free tail sorted : List Piece) : Prop where
  /-- The fixed pieces are the outer ones, and a lone piece is fixed once. -/
  parts : Partitioned ends (divide value).pieces head free tail
  /-- Leading blanks and fixed pieces are where they were. -/
  result : divide out = ⟨(divide value).leading, head ++ sorted ++ tail⟩
  /-- The tokens of the result, in order. -/
  tokens : (tokens out).map (·.text) =
    head.map (·.word) ++ sorted.map (·.word) ++ tail.map (·.word)
  /-- The free words are sorted stably by rank. -/
  order : StablySorted r (free.map (·.word)) (sorted.map (·.word))
  /-- Unrecognized words stand before all recognized ones. -/
  unrecognized : sorted.map (·.word) = ((free.map (·.word)).filter fun w => r w = none) ++
    (sorted.map (·.word)).filter fun w => r w ≠ none
  /-- Inside the sorted part every gap is one space. -/
  spaces : ∀ p ∈ sorted.dropLast, p.gap = [' ']
  /-- The gap in front of a fixed last piece is the old one. -/
  seam : lastGap sorted = lastGap free
  /-- Trailing blanks are where they were. -/
  trailing : lastGap (divide out).pieces = lastGap (divide value).pieces

theorem lastGap_parts {head free tail : List Piece} :
    lastGap (head ++ free ++ tail) =
      if tail ≠ [] then lastGap tail else if free ≠ [] then lastGap free else lastGap head := by
  by_cases htail : tail = []
  · by_cases hfree : free = []
    · simp [htail, hfree]
    · simp [htail, hfree, lastGap_append hfree]
  · rw [lastGap_append htail, if_pos htail]

/-- **The layout of a sorted class list.** A list with an interpolation mark in it is
returned as it is; any other is written as `SortedFrom` says. -/
theorem sort_layout (r : Ranking) (ends : FixedEnds) (value : Text) :
    (Text.includes interpolationMark value = true → sort r ends value = value) ∧
    (Text.includes interpolationMark value = false →
      ∃ head free tail sorted,
        SortedFrom r ends value (sort r ends value) head free tail sorted) := by
  refine ⟨sort_of_mark, fun hmark => ?_⟩
  obtain ⟨head, free, tail, hparts⟩ := exists_partitioned ends (divide value).pieces
  have hdivide := divide_sort (r := r) hmark hparts
  have hsorted := stablySorted_sortBy r (free.map (·.word))
  rw [← map_word_sortFree] at hsorted
  refine ⟨head, free, tail, sortFree r free, hparts, hdivide, ?_, hsorted, hsorted.unrecognized,
    gap_dropLast_respace _ _, lastGap_sortFree r free, ?_⟩
  · rw [map_text_tokens, hdivide]
    simp only [List.map_append]
  · have hnil : sortFree r free ≠ [] ↔ free ≠ [] := not_congr sortFree_eq_nil
    rw [hdivide, hparts.eq]
    dsimp only
    rw [lastGap_parts, lastGap_parts, lastGap_sortFree]
    simp only [hnil]

/-- A list with both ends fixed, uneven gaps and a class that is not recognized. -/
theorem sort_layout_fixed_ends :
    Text.includes interpolationMark "\u3000x-  C y\tA -z ".toList = false ∧
    ∃ head free tail sorted,
      SortedFrom (Ranking.ofNames ["A".toList, "C".toList]) ⟨true, true⟩
        "\u3000x-  C y\tA -z ".toList
        (sort (Ranking.ofNames ["A".toList, "C".toList]) ⟨true, true⟩
          "\u3000x-  C y\tA -z ".toList) head free tail sorted := by
  have hmark : Text.includes interpolationMark "\u3000x-  C y\tA -z ".toList = false := by decide
  exact ⟨hmark, (sort_layout _ _ _).2 hmark⟩

end ClassSort.ClassList
