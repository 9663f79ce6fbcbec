import Mathlib.Data.List.Pairwise
import ClassSort.Proofs.Conservation

/-!
# Units that do not overlap

Edits are computed one by one and made in the order of their ranges, and one that begins
before the end of an earlier one is left out. Whether that ever happens is a question
about the units alone, because **an edit has the range of its unit**. For units none of
which reaches into the next, both sorts on the way leave everything where it is.

In general, units may overlap where one of them encloses the other. Then the outer one
goes first, and **an edit is left out exactly if one that encloses it is made**.
-/

namespace ClassSort

/-- Two ranges have no byte in common. -/
def Span.Separate (s t : Span) : Prop := s.stop ≤ t.start ∨ t.stop ≤ s.start

instance (s t : Span) : Decidable (s.Separate t) := inferInstanceAs (Decidable (_ ∨ _))

/-- What has separate ranges in order has them in any order. -/
theorem Span.Separate.of_pairwise {α : Type} {f : α → Span} {l : List α}
    (h : l.Pairwise fun a b => (f a).Separate (f b)) {a b : α} (ha : a ∈ l) (hb : b ∈ l)
    (hne : a ≠ b) : (f a).Separate (f b) := by
  have hsymm : Std.Symm fun a b => (f a).Separate (f b) := ⟨fun _ _ => Or.symm⟩
  exact h.forall ha hb hne

namespace ClassUnit

/-- An edit has the range of its unit. -/
theorem span_of_edit? {source : Text} {r : Ranking} {u : ClassUnit} {e : Edit}
    (h : u.edit? source r = some e) : e.span = u.span := by
  cases u with
  | list c =>
      obtain ⟨old, -, hsame⟩ := Option.bind_eq_some_iff.mp h
      rw [Edit.eq_of_unlessSame hsame]
      rfl
  | entries es =>
      unfold edit? Entry.edit? at h
      simp only [Option.bind_eq_bind, Option.bind_eq_some_iff] at h
      obtain ⟨old, -, ms, -, gs, -, hsame⟩ := h
      rw [Edit.eq_of_unlessSame hsame]
      rfl

theorem edits_singleton (source : Text) (r : Ranking) (u : ClassUnit) :
    edits source r [u] = (u.edit? source r).toList := by
  unfold edits
  cases h : u.edit? source r with
  | none => exact List.filterMap_cons_none h
  | some e => exact List.filterMap_cons_some h

/-- The edit of a class list, with what stands there before. -/
theorem edit?_list (r : Ranking) {source before old behind : Text} {c : ClassSpan}
    (hsource : source = before ++ (old ++ behind))
    (hspan : c.span = ⟨Text.size before, Text.size before + Text.size old⟩) :
    edit? source r (.list c) = Edit.unlessSame c.span old (ClassList.sort r c.ends old) := by
  have hslice : Text.slice? source c.span = some old := by
    rw [hsource, hspan, ← List.append_assoc]
    exact Text.slice?_append before old behind
  show (Text.slice? source c.span).bind _ = _
  rw [hslice]
  rfl

/-- Units that follow each other are in order. -/
theorem inOrder_of_pairwise {us : List ClassUnit}
    (h : us.Pairwise fun u v => u.span.start ≤ v.span.start) : inOrder us = us := by
  refine stableSort_of_pairwise (h.imp ?_)
  intro u v huv
  exact decide_eq_true huv

theorem pairwise_inOrder (us : List ClassUnit) :
    (inOrder us).Pairwise fun u v => u.span.start ≤ v.span.start := by
  refine (pairwise_stableSort ?_ ?_ us).imp of_decide_eq_true
  · intro u v w huv hvw
    simp only [decide_eq_true_eq] at huv hvw ⊢
    omega
  · intro u v
    simp only [Bool.or_eq_true, decide_eq_true_eq]
    omega

/-- Any relation between the ranges of units is one between the ranges of their edits. -/
theorem pairwise_edits {R : Span → Span → Prop} {source : Text} {r : Ranking}
    {us : List ClassUnit} (h : us.Pairwise fun u v => R u.span v.span) :
    (edits source r us).Pairwise fun a b => R a.span b.span := by
  unfold edits
  rw [List.pairwise_filterMap]
  refine h.imp ?_
  intro u v huv a ha b hb
  rw [span_of_edit? ha, span_of_edit? hb]
  exact huv

end ClassUnit

namespace Edit

theorem Sound.start_le_stop {source : Text} {e : Edit} (h : e.Sound source) :
    e.span.start ≤ e.span.stop := by
  obtain ⟨old, hold, -⟩ := h
  have hbounds := (Text.bounds_of_slice? hold).1
  omega

theorem Sound.stop_le_size {source : Text} {e : Edit} (h : e.Sound source) :
    e.span.stop ≤ Text.size source := by
  obtain ⟨old, hold, -⟩ := h
  exact (Text.bounds_of_slice? hold).2

theorem le_iff {a b : Edit} : le a b = true ↔ a.span.start < b.span.start ∨
    a.span.start = b.span.start ∧ a.span.stop ≤ b.span.stop := by
  simp [le]

/-- Edits that follow each other are in the order in which they are made. -/
theorem stableSort_of_follows {es : List Edit} (hs : ∀ e ∈ es, e.span.start ≤ e.span.stop)
    (h : es.Pairwise fun a b => a.span.stop ≤ b.span.start) : stableSort le es = es := by
  refine stableSort_of_pairwise (h.imp_of_mem ?_)
  intro a b ha hb hab
  have hforward := hs a ha
  have hforward' := hs b hb
  rw [le_iff]
  omega

/-! ## Edits that are left out -/

/-- The edits that are made, from `cursor` on. -/
def madeFrom (source : Text) : Nat → List Edit → List Edit
  | _, [] => []
  | cursor, e :: es =>
    if e.span.start < cursor || Text.size source < e.span.stop then madeFrom source cursor es
    else e :: madeFrom source e.span.stop es

/-- The edits that are made of some edits of a source. -/
def made (source : Text) (es : List Edit) : List Edit := madeFrom source 0 (stableSort le es)

/-- The source from `cursor` on with every edit made, whatever its range. -/
def spliceEvery (source : Text) : Nat → List Edit → Option Text
  | cursor, [] => Text.drop? source cursor
  | cursor, e :: es => do
    let kept ← Text.slice? source ⟨cursor, e.span.start⟩
    let rest ← spliceEvery source e.span.stop es
    return kept ++ e.text ++ rest

theorem splice_eq_spliceEvery (source : Text) (cursor : Nat) (es : List Edit) :
    splice source cursor es = spliceEvery source cursor (madeFrom source cursor es) := by
  induction es generalizing cursor with
  | nil => rfl
  | cons e es ih =>
      rw [splice, madeFrom]
      split
      · exact ih cursor
      · rw [spliceEvery, ih e.span.stop]

theorem applyAll_eq_spliceEvery (source : Text) (es : List Edit) :
    applyAll source es = spliceEvery source 0 (made source es) :=
  splice_eq_spliceEvery source 0 _

/-- The edits that are made follow each other. -/
theorem pairwise_madeFrom {source : Text} (cursor : Nat) {es : List Edit}
    (h : ∀ e ∈ es, e.span.start ≤ e.span.stop) :
    (∀ e ∈ madeFrom source cursor es, cursor ≤ e.span.start) ∧
      (madeFrom source cursor es).Pairwise fun a b => a.span.stop ≤ b.span.start := by
  induction es generalizing cursor with
  | nil => exact ⟨by simp [madeFrom], .nil⟩
  | cons e es ih =>
      obtain ⟨hforward, hes⟩ := List.forall_mem_cons.mp h
      rw [madeFrom]
      split
      · exact ih cursor hes
      · rename_i hmade
        simp only [Bool.or_eq_true, decide_eq_true_eq] at hmade
        obtain ⟨hstart, hpairs⟩ := ih e.span.stop hes
        refine ⟨fun e' he' => ?_, .cons hstart hpairs⟩
        rcases List.mem_cons.mp he' with rfl | he'
        · omega
        · have := hstart e' he'
          omega

/-- An edit is left out only if one that goes before it is made and reaches into it. -/
theorem mem_madeFrom_or_reached {source : Text} (cursor : Nat) {es : List Edit}
    (hs : ∀ e ∈ es, e.span.stop ≤ Text.size source)
    (hsorted : es.Pairwise fun a b => le a b = true) {e : Edit} (he : e ∈ es) :
    e ∈ madeFrom source cursor es ∨ e.span.start < cursor ∨
      ∃ e' ∈ madeFrom source cursor es, le e' e = true ∧ e.span.start < e'.span.stop := by
  induction es generalizing cursor with
  | nil => exact absurd he (by simp)
  | cons a es ih =>
      obtain ⟨ha, hes⟩ := List.forall_mem_cons.mp hs
      obtain ⟨hfirst, hrest⟩ := List.pairwise_cons.mp hsorted
      rw [madeFrom]
      split
      · rename_i hleft
        rcases List.mem_cons.mp he with rfl | he
        · simp only [Bool.or_eq_true, decide_eq_true_eq] at hleft
          exact .inr (.inl (by omega))
        · exact ih cursor hes hrest he
      · rcases List.mem_cons.mp he with rfl | he
        · exact .inl List.mem_cons_self
        · -- behind an edit that is made, the cursor is at its end
          rcases ih a.span.stop hes hrest he with hmem | hreached | ⟨e', hmem, hle⟩
          · exact .inl (List.mem_cons_of_mem _ hmem)
          · exact .inr (.inr ⟨a, List.mem_cons_self, hfirst e he, hreached⟩)
          · exact .inr (.inr ⟨e', List.mem_cons_of_mem _ hmem, hle⟩)

theorem pairwise_made_order (es : List Edit) :
    (stableSort le es).Pairwise fun a b => le a b = true := by
  refine pairwise_stableSort ?_ ?_ es
  · intro a b c hab hbc
    rw [le_iff] at hab hbc ⊢
    omega
  · intro a b
    rw [Bool.or_eq_true, le_iff, le_iff]
    omega

variable {source : Text} {es : List Edit}

theorem mem_of_mem_made {e : Edit} (h : e ∈ made source es) : e ∈ es := by
  have hsub : ∀ (cursor : Nat) (es : List Edit), (madeFrom source cursor es).Sublist es := by
    intro cursor es
    induction es generalizing cursor with
    | nil => exact .slnil
    | cons e es ih =>
        rw [madeFrom]
        split
        · exact (ih cursor).cons e
        · exact (ih e.span.stop).cons_cons e
  exact (stableSort_perm le es).mem_iff.mp ((hsub 0 _).mem h)

theorem separate_of_mem_made (hs : ∀ e ∈ es, e.Sound source) {a b : Edit}
    (ha : a ∈ made source es) (hb : b ∈ made source es) (hne : a ≠ b) :
    a.span.Separate b.span := by
  have hforward : ∀ e ∈ stableSort le es, e.span.start ≤ e.span.stop :=
    fun e he => (hs e ((stableSort_perm le es).mem_iff.mp he)).start_le_stop
  have hpairs : (made source es).Pairwise fun a b => a.span.Separate b.span :=
    (pairwise_madeFrom 0 hforward).2.imp .inl
  exact Span.Separate.of_pairwise hpairs ha hb hne

theorem mem_made_or_reached (hs : ∀ e ∈ es, e.Sound source) {e : Edit} (he : e ∈ es) :
    e ∈ made source es ∨
      ∃ e' ∈ made source es, le e' e = true ∧ e.span.start < e'.span.stop := by
  have hfits : ∀ e ∈ stableSort le es, e.span.stop ≤ Text.size source :=
    fun e he => (hs e ((stableSort_perm le es).mem_iff.mp he)).stop_le_size
  rcases mem_madeFrom_or_reached 0 hfits (pairwise_made_order es)
    ((stableSort_perm le es).mem_iff.mpr he) with hmade | hzero | hreached
  · exact .inl hmade
  · exact absurd hzero (Nat.not_lt_zero _)
  · exact .inr hreached

end Edit

namespace ClassUnit

variable {Encloses : ClassUnit → ClassUnit → Prop} {us : List ClassUnit}

theorem separate_or_nested (hus : us.Pairwise fun u v => u.span.Separate v.span ∨ Encloses u v)
    {u v : ClassUnit} (hu : u ∈ us) (hv : v ∈ us) (hne : u ≠ v) :
    u.span.Separate v.span ∨ Encloses u v ∨ Encloses v u := by
  have hsymm : Std.Symm fun u v : ClassUnit =>
      u.span.Separate v.span ∨ Encloses u v ∨ Encloses v u :=
    ⟨fun _ _ h => h.imp Or.symm Or.symm⟩
  have hboth : us.Pairwise fun u v => u.span.Separate v.span ∨ Encloses u v ∨ Encloses v u :=
    hus.imp fun h => h.imp_right Or.inl
  exact hboth.forall hu hv hne

/-- Units that are separate or nested are so in order, if what is nested begins later. -/
theorem pairwise_nested_inOrder (hstart : ∀ u v, Encloses u v → u.span.start < v.span.start)
    (hus : us.Pairwise fun u v => u.span.Separate v.span ∨ Encloses u v) :
    (inOrder us).Pairwise fun u v => u.span.Separate v.span ∨ Encloses u v := by
  have heither : (inOrder us).Pairwise
      fun u v => u.span.Separate v.span ∨ Encloses u v ∨ Encloses v u := by
    refine ((stableSort_perm _ us).pairwise_iff ?_).mpr (hus.imp fun h => h.imp_right Or.inl)
    intro u v h
    exact h.imp Or.symm Or.symm
  refine (List.pairwise_and_iff.mpr ⟨heither, pairwise_inOrder us⟩).imp ?_
  rintro u v ⟨hsep | hencloses | hencloses, hle⟩
  · exact .inl hsep
  · exact .inr hencloses
  · -- the outer one comes first
    have := hstart v u hencloses
    omega

/-- The edits of units can be made, all but those that are left out. -/
theorem exists_spliceEvery (source : Text) (r : Ranking) (us : List ClassUnit) :
    ∃ out, Edit.applyAll source (edits source r us) = some out ∧
      Edit.spliceEvery source 0 (Edit.made source (edits source r us)) = some out := by
  have hsound : ∀ e ∈ edits source r us, e.Sound source := fun _ => sound_of_mem_edits
  obtain ⟨out, hout, -⟩ := Edit.applyAll_conserves hsound
  exact ⟨out, hout, by rw [← hout, Edit.applyAll_eq_spliceEvery]⟩

/-- **An edit is left out exactly if one that encloses it is made.** -/
theorem mem_made_iff {source : Text} {r : Ranking}
    (hbounds : ∀ u v, Encloses u v → v.span.start ≤ v.span.stop →
      u.span.start < v.span.start ∧ v.span.start < u.span.stop)
    (hus : us.Pairwise fun u v => u.span.Separate v.span ∨ Encloses u v) {v : ClassUnit}
    (hv : v ∈ us) {e : Edit} (he : v.edit? source r = some e) :
    e ∈ Edit.made source (edits source r us) ↔
      ¬ ∃ u ∈ us, Encloses u v ∧ ∃ e' ∈ Edit.made source (edits source r us),
        u.edit? source r = some e' := by
  have hsound : ∀ e ∈ edits source r us, e.Sound source := fun _ => sound_of_mem_edits
  have hmem : e ∈ edits source r us := List.mem_filterMap.mpr ⟨v, hv, he⟩
  have hspan := span_of_edit? he
  have hforward := (hsound e hmem).start_le_stop
  constructor
  · rintro hmade ⟨u, -, hencloses, e', hmade', he'⟩
    have hspan' := span_of_edit? he'
    have hin := hbounds u v hencloses (hspan ▸ hforward)
    rw [← hspan, ← hspan'] at hin
    have hne : e' ≠ e := by
      rintro rfl
      omega
    rcases Edit.separate_of_mem_made hsound hmade' hmade hne with hsep | hsep <;> omega
  · intro hnone
    rcases Edit.mem_made_or_reached hsound hmem with hmade | ⟨e', hmade', hle, hreach⟩
    · exact hmade
    · obtain ⟨u, hu, he'⟩ := List.mem_filterMap.mp (Edit.mem_of_mem_made hmade')
      have hspan' := span_of_edit? he'
      have hforward' := (hsound e' (Edit.mem_of_mem_made hmade')).start_le_stop
      rw [Edit.le_iff] at hle
      by_cases huv : u = v
      · -- one unit has one edit
        rw [huv, he] at he'
        injection he' with heq
        exact heq ▸ hmade'
      · rcases separate_or_nested hus hu hv huv with hsep | hencloses | hencloses
        · rw [← hspan, ← hspan'] at hsep
          rcases hsep with hsep | hsep <;> omega
        · exact absurd ⟨u, hu, hencloses, e', hmade', he'⟩ hnone
        · have hin := hbounds v u hencloses (hspan' ▸ hforward')
          rw [← hspan, ← hspan'] at hin
          omega

end ClassUnit

end ClassSort
