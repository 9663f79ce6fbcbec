import ClassSort.Proofs.DisjointUnits

/-!
# Reading behind edits

Edits move what stands behind them. `Edit.moved` says where an offset of the source has gone,
and two facts say what can be read there: the range of an edit holds the text of that edit
(`slice?_moved_self`), and **a range that no edit touches holds what it held**
(`slice?_moved`), even if that is nothing because the range cuts a character.

Both follow the pass over the source: the cursor is at some offset, something has been
written, and what is behind the cursor stands behind what was written.
-/

namespace ClassSort

/-! ## Ranges in a part of a text -/

namespace Text

/-- A range behind a first part. -/
theorem slice?_behind (a k : Text) (i j : Nat) :
    slice? (a ++ k) ⟨size a + i, size a + j⟩ = slice? k ⟨i, j⟩ := by
  refine Option.ext fun x => ?_
  rw [slice?_eq_some, slice?_eq_some]
  constructor
  · rintro ⟨b, rest, hsplit, hstart, hstop⟩
    rw [List.append_assoc] at hsplit
    obtain ⟨y, rfl, hk⟩ := Edit.append_after hsplit (by omega)
    rw [size_append] at hstart
    exact ⟨y, rest, by rw [hk, List.append_assoc], by omega, by omega⟩
  · rintro ⟨y, rest, rfl, hstart, hstop⟩
    refine ⟨a ++ y, rest, by simp, ?_, by omega⟩
    rw [size_append]
    omega

/-- A range in front of a last part. -/
theorem slice?_in_front (k b : Text) {i j : Nat} (hj : j ≤ size k) :
    slice? (k ++ b) ⟨i, j⟩ = slice? k ⟨i, j⟩ := by
  refine Option.ext fun x => ?_
  rw [slice?_eq_some, slice?_eq_some]
  constructor
  · rintro ⟨y, rest, hsplit, hstart, hstop⟩
    obtain ⟨z, hk, -⟩ := Edit.append_after hsplit.symm (by rw [size_append]; omega)
    exact ⟨y, z, hk, hstart, hstop⟩
  · rintro ⟨y, z, rfl, hstart, hstop⟩
    exact ⟨y, z ++ b, by simp, hstart, hstop⟩

theorem slice?_middle (a k b : Text) {i j : Nat} (hj : j ≤ size k) :
    slice? (a ++ k ++ b) ⟨size a + i, size a + j⟩ = slice? k ⟨i, j⟩ := by
  rw [List.append_assoc, slice?_behind, slice?_in_front k b hj]

end Text

namespace Edit

/-! ## Where an offset goes -/

/-- Where offset `n` of the source is in the result, if the source has been read up to `cursor`
and `pos` bytes have been written. The end of an edit is behind what the edit writes. -/
def movedFrom (cursor pos : Nat) : List Edit → Nat → Nat
  | [], n => pos + (n - cursor)
  | e :: es, n =>
    if n < e.span.stop then pos + (n - cursor)
    else movedFrom e.span.stop (pos + (e.span.start - cursor) + Text.size e.text) es n

/-- Where an offset of the source is when the edits have been made. -/
def moved (es : List Edit) : Nat → Nat := movedFrom 0 0 es

/-- Edits that replace something, one behind the other, from `cursor` on. -/
structure InRow (cursor : Nat) (es : List Edit) : Prop where
  behind : ∀ e ∈ es, cursor ≤ e.span.start
  forward : ∀ e ∈ es, e.span.start < e.span.stop
  ordered : es.Pairwise fun a b => a.span.stop ≤ b.span.start

theorem InRow.tail {cursor : Nat} {e : Edit} {es : List Edit} (h : InRow cursor (e :: es)) :
    InRow e.span.stop es := by
  obtain ⟨hfirst, hrest⟩ := List.pairwise_cons.mp h.ordered
  exact ⟨hfirst, fun e' he' => h.forward e' (List.mem_cons_of_mem e he'), hrest⟩

/-- The cursor is at what comes next. -/
theorem movedFrom_cursor {cursor : Nat} (pos : Nat) {es : List Edit} (h : InRow cursor es) :
    movedFrom cursor pos es cursor = pos := by
  cases es with
  | nil =>
      rw [movedFrom]
      omega
  | cons e es =>
      have hbehind := h.behind e List.mem_cons_self
      have hforward := h.forward e List.mem_cons_self
      rw [movedFrom, if_pos (by omega)]
      omega

theorem movedFrom_behind {cursor pos n : Nat} {e : Edit} {es : List Edit} (hn : e.span.stop ≤ n) :
    movedFrom cursor pos (e :: es) n =
      movedFrom e.span.stop (pos + (e.span.start - cursor) + Text.size e.text) es n := by
  rw [movedFrom, if_neg (by omega)]

theorem movedFrom_in_front {cursor pos n : Nat} {e : Edit} {es : List Edit} (hn : n < e.span.stop) :
    movedFrom cursor pos (e :: es) n = pos + (n - cursor) := by
  rw [movedFrom, if_pos hn]

/-! ## What is there -/

/-- The pass up to the end of the first edit: what is kept in front of it, where that stands in
the source, and how much has been written by then. -/
theorem spliceEvery_cons {source out : Text} {cursor : Nat} {e : Edit} {es : List Edit}
    (h : spliceEvery source cursor (e :: es) = some out) :
    ∃ kept rest a b, source = a ++ kept ++ b ∧ Text.size a = cursor ∧
      cursor + Text.size kept = e.span.start ∧ spliceEvery source e.span.stop es = some rest ∧
      out = kept ++ (e.text ++ rest) ∧ ∀ written, Text.size (written ++ kept ++ e.text) =
        Text.size written + (e.span.start - cursor) + Text.size e.text := by
  rw [spliceEvery] at h
  simp only [Option.bind_eq_bind, Option.bind_eq_some_iff, Option.pure_def, Option.some.injEq] at h
  obtain ⟨kept, hkept, rest, hrest, rfl⟩ := h
  obtain ⟨a, b, hsource, ha, hsize⟩ := Text.slice?_eq_some.mp hkept
  refine ⟨kept, rest, a, b, hsource, ha, hsize, hrest, List.append_assoc _ _ _, ?_⟩
  intro written
  rw [Text.size_append, Text.size_append]
  omega

theorem slice?_movedFrom {source out : Text} {cursor : Nat} {es : List Edit} (hes : InRow cursor es)
    (h : spliceEvery source cursor es = some out) {i j : Nat} (hstart : cursor ≤ i) (hij : i ≤ j)
    (hfree : ∀ e ∈ es, e.span.Separate ⟨i, j⟩) (written : Text) :
    Text.slice? (written ++ out) ⟨movedFrom cursor (Text.size written) es i,
      movedFrom cursor (Text.size written) es j⟩ = Text.slice? source ⟨i, j⟩ := by
  induction es generalizing cursor out written with
  | nil =>
      obtain ⟨a, rfl, rfl⟩ := Text.drop?_eq_some.mp h
      have hsource := Text.slice?_behind a out (i - Text.size a) (j - Text.size a)
      rw [Nat.add_sub_cancel' hstart, Nat.add_sub_cancel' (Nat.le_trans hstart hij)] at hsource
      rw [hsource]
      exact Text.slice?_behind written out _ _
  | cons e es ih =>
      obtain ⟨kept, rest, a, b, hsource, ha, hkept, hrest, rfl, hsize⟩ := spliceEvery_cons h
      have hforward := hes.forward e List.mem_cons_self
      rcases hfree e List.mem_cons_self with hbehind | hfront
      · -- the range is behind the edit, where the pass goes on
        dsimp only at hbehind
        have hnext := ih hes.tail hrest hbehind
          (fun e' he' => hfree e' (List.mem_cons_of_mem e he')) (written ++ kept ++ e.text)
        rw [hsize] at hnext
        rw [movedFrom_behind hbehind, movedFrom_behind (Nat.le_trans hbehind hij), ← hnext]
        simp only [List.append_assoc]
      · -- the range is in the kept text
        dsimp only at hfront
        have hin : j - cursor ≤ Text.size kept := by omega
        have hold := Text.slice?_middle a kept b (i := i - cursor) hin
        rw [← hsource, ha, Nat.add_sub_cancel' hstart,
          Nat.add_sub_cancel' (Nat.le_trans hstart hij)] at hold
        have hnew := Text.slice?_middle written kept (e.text ++ rest) (i := i - cursor) hin
        rw [movedFrom_in_front (by omega), movedFrom_in_front (by omega), hold, ← hnew,
          List.append_assoc]

theorem slice?_movedFrom_self {source out : Text} {cursor : Nat} {es : List Edit}
    (hes : InRow cursor es) (h : spliceEvery source cursor es = some out) {e : Edit} (he : e ∈ es)
    (written : Text) :
    Text.slice? (written ++ out) ⟨movedFrom cursor (Text.size written) es e.span.start,
      movedFrom cursor (Text.size written) es e.span.stop⟩ = some e.text := by
  induction es generalizing cursor out written with
  | nil => exact absurd he (by simp)
  | cons e' es ih =>
      obtain ⟨kept, rest, a, b, hsource, ha, hkept, hrest, rfl, hsize⟩ := spliceEvery_cons h
      rcases List.mem_cons.mp he with rfl | he
      · -- the end of the edit is where the pass goes on
        have hforward := hes.forward e List.mem_cons_self
        have hslice := Text.slice?_append (written ++ kept) e.text rest
        rw [← Text.size_append, hsize, Text.size_append] at hslice
        rw [movedFrom_in_front hforward, movedFrom_behind (Nat.le_refl _),
          movedFrom_cursor _ hes.tail, ← hslice, ← hkept, Nat.add_sub_cancel_left]
        simp only [List.append_assoc]
      · have hbehind := hes.tail.behind e he
        have hforward := hes.forward e (List.mem_cons_of_mem e' he)
        have hnext := ih hes.tail hrest he (written ++ kept ++ e'.text)
        rw [hsize] at hnext
        rw [movedFrom_behind hbehind, movedFrom_behind (by omega), ← hnext]
        simp only [List.append_assoc]

/-! ## The whole pass -/

theorem madeFrom_of_inRow {source : Text} {cursor : Nat} {es : List Edit} (h : InRow cursor es)
    (hsize : ∀ e ∈ es, e.span.stop ≤ Text.size source) : madeFrom source cursor es = es := by
  induction es generalizing cursor with
  | nil => rfl
  | cons e es ih =>
      have hbehind := h.behind e List.mem_cons_self
      have hstop := hsize e List.mem_cons_self
      rw [madeFrom, if_neg (by simp; omega),
        ih h.tail fun e' he' => hsize e' (List.mem_cons_of_mem e he')]

/-- Edits in a row are all made, as they stand. -/
theorem applyAll_of_inRow {source : Text} {es : List Edit} (hs : ∀ e ∈ es, e.Sound source)
    (h : InRow 0 es) : applyAll source es = spliceEvery source 0 es := by
  have hforward : ∀ e ∈ es, e.span.start ≤ e.span.stop := fun e he => Nat.le_of_lt (h.forward e he)
  rw [applyAll_eq_spliceEvery, made, stableSort_of_follows hforward h.ordered,
    madeFrom_of_inRow h fun e he => (hs e he).stop_le_size]

variable {source out : Text} {es : List Edit}

/-- **A range that no edit touches holds what it held.** -/
theorem slice?_moved (h : spliceEvery source 0 es = some out) (hes : InRow 0 es) {s : Span}
    (hs : s.start ≤ s.stop) (hfree : ∀ e ∈ es, e.span.Separate s) :
    Text.slice? out (s.map (moved es)) = Text.slice? source s :=
  slice?_movedFrom hes h (Nat.zero_le _) hs hfree []

/-- The range of an edit holds the text of the edit. -/
theorem slice?_moved_self (h : spliceEvery source 0 es = some out) (hes : InRow 0 es) {e : Edit}
    (he : e ∈ es) : Text.slice? out (e.span.map (moved es)) = some e.text :=
  slice?_movedFrom_self hes h he []

end Edit

/-! ## The edits of units -/

namespace ClassUnit

variable {source : Text} {r : Ranking}

theorem changes_of_edit? {u : ClassUnit} {e : Edit} (h : u.edit? source r = some e) :
    Text.slice? source e.span ≠ some e.text := by
  have hunless : ∀ {span : Span} {old text : Text}, Text.slice? source span = some old →
      Edit.unlessSame span old text = some e → Text.slice? source e.span ≠ some e.text := by
    intro span old text hold hsame
    have hne : text ≠ old := by
      rintro rfl
      exact absurd hsame (by simp [Edit.unlessSame])
    rw [Edit.eq_of_unlessSame hsame, hold]
    exact fun heq => hne (Option.some.inj heq).symm
  cases u with
  | list c =>
      obtain ⟨old, hold, hsame⟩ := Option.bind_eq_some_iff.mp h
      exact hunless hold hsame
  | entries es =>
      unfold edit? Entry.edit? at h
      simp only [Option.bind_eq_bind, Option.bind_eq_some_iff] at h
      obtain ⟨old, hold, ms, -, gs, -, hsame⟩ := h
      exact hunless hold hsame

/-- An edit replaces something: the empty text could only be replaced by itself. -/
theorem forward_of_mem_edits {us : List ClassUnit} {e : Edit} (h : e ∈ edits source r us) :
    e.span.start < e.span.stop := by
  obtain ⟨u, -, hu⟩ := List.mem_filterMap.mp h
  obtain ⟨old, hold, hcons⟩ := sound_of_mem_edits h
  have hchanges := changes_of_edit? hu
  have hbounds := Text.bounds_of_slice? hold
  by_cases hforward : e.span.start < e.span.stop
  · exact hforward
  · have hnil : old = [] := Text.eq_nil_of_size_eq_zero (by omega)
    have hsize := hcons.size
    rw [hnil] at hold hsize
    have htext : e.text = [] := Text.eq_nil_of_size_eq_zero (Nat.le_zero.mp hsize)
    rw [hold, htext] at hchanges
    exact absurd rfl hchanges

/-- Units that follow each other have edits in a row. -/
theorem inRow_edits {us : List ClassUnit}
    (h : us.Pairwise fun u v => u.span.stop ≤ v.span.start) : Edit.InRow 0 (edits source r us) :=
  ⟨fun _ _ => Nat.zero_le _, fun _ => forward_of_mem_edits,
    pairwise_edits (R := fun s t => s.stop ≤ t.start) h⟩

/-- So they are all made. -/
theorem spliceEvery_edits {us : List ClassUnit} {out : Text}
    (h : us.Pairwise fun u v => u.span.stop ≤ v.span.start)
    (hout : Edit.applyAll source (edits source r us) = some out) :
    Edit.spliceEvery source 0 (edits source r us) = some out := by
  rw [← Edit.applyAll_of_inRow (fun _ => sound_of_mem_edits) (inRow_edits h)]
  exact hout

/-- The edits that are made are in a row, whatever the units. -/
theorem inRow_made (source : Text) (r : Ranking) (us : List ClassUnit) :
    Edit.InRow 0 (Edit.made source (edits source r us)) := by
  have hforward : ∀ e ∈ stableSort Edit.le (edits source r us), e.span.start ≤ e.span.stop :=
    fun e he => Nat.le_of_lt (forward_of_mem_edits ((stableSort_perm _ _).mem_iff.mp he))
  obtain ⟨hbehind, hordered⟩ := @Edit.pairwise_madeFrom source 0 _ hforward
  exact ⟨hbehind, fun e he => forward_of_mem_edits (Edit.mem_of_mem_made he), hordered⟩

/-- **A stretch that no unit touches stays as it is.** -/
theorem slice?_of_separate (r : Ranking) {us : List ClassUnit} {s : Span} (hs : s.start ≤ s.stop)
    (hfree : ∀ u ∈ us, u.span.Separate s) :
    ∃ out, Edit.applyAll source (edits source r us) = some out ∧
      Text.slice? out (s.map (Edit.moved (Edit.made source (edits source r us)))) =
        Text.slice? source s := by
  obtain ⟨out, hout, hpass⟩ := exists_spliceEvery source r us
  refine ⟨out, hout, Edit.slice?_moved hpass (inRow_made source r us) hs fun e he => ?_⟩
  obtain ⟨u, hu, hedit⟩ := List.mem_filterMap.mp (Edit.mem_of_mem_made he)
  rw [span_of_edit? hedit]
  exact hfree u hu

end ClassUnit

end ClassSort
