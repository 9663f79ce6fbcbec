import ClassSort.Language.Basic
import ClassSort.Proofs.SortedList

/-!
# Sorting conserves text

Whatever units are handed in, edits made from them rearrange text and narrow blanks, and
nothing else. The argument has three layers:

* a class list conserves its text, because only gaps are rewritten and each inner gap has
  at least the one byte that is put in its place;
* entries conserve the text of their region, because the checks on all the ranges inside
  it force keys, values and the texts between entries to *tile* the region;
* one pass of edits conserves the source, because an edit is made only from the cursor on,
  and the cursor is always a boundary.

No unit has to be well placed for this. A range that cuts a character, runs backwards or
leaves the source gives no edit, and of two edits that overlap the later one is dropped.
-/

namespace ClassSort

/-- The characters of a text that are not blank. -/
def Text.ink (cs : Text) : Text := cs.filter fun c => !Text.isBlank c

/-- `new` has the characters of `old` apart from blanks, and takes up no more room. -/
structure Conserves (old new : Text) : Prop where
  ink : new.ink.Perm old.ink
  size : new.size ≤ old.size

theorem Conserves.refl (cs : Text) : Conserves cs cs := ⟨.refl _, Nat.le_refl _⟩

theorem Text.ink_append (a b : Text) : (a ++ b).ink = a.ink ++ b.ink := List.filter_append a b

theorem Text.ink_perm {a b : Text} (h : a.Perm b) : a.ink.Perm b.ink := h.filter _

theorem Conserves.append {a a' b b' : Text} (ha : Conserves a a') (hb : Conserves b b') :
    Conserves (a ++ b) (a' ++ b') := by
  refine ⟨?_, ?_⟩
  · rw [Text.ink_append, Text.ink_append]
    exact ha.ink.append hb.ink
  · rw [Text.size_append, Text.size_append]
    exact Nat.add_le_add ha.size hb.size

/-- The order of the characters does not matter on either side. -/
theorem Conserves.of_perm {a a' b b' : Text} (h : Conserves a b) (ha : a.Perm a')
    (hb : b.Perm b') : Conserves a' b' := by
  refine ⟨?_, ?_⟩
  · exact ((Text.ink_perm hb).symm.trans h.ink).trans (Text.ink_perm ha)
  · rw [← Text.size_perm ha, ← Text.size_perm hb]
    exact h.size

/-! ## Class lists -/

namespace ClassList

theorem ink_gap {g : Text} (h : IsGap g) : g.ink = [] := by
  unfold Text.ink
  rw [List.filter_eq_nil_iff]
  intro c hc
  simp [h c hc]

theorem ink_word {w : Text} (h : IsWord w) : w.ink = w := by
  unfold Text.ink
  rw [List.filter_eq_self]
  intro c hc
  simp [h.2 c hc]

/-- What is left of parted pieces without the blanks is their words. -/
theorem ink_pieces {ps : List Piece} (h : Parted ps) :
    Text.ink (ps.flatMap fun p => p.word ++ p.gap) = (ps.map (·.word)).flatten := by
  induction ps with
  | nil => rfl
  | cons p ps ih =>
      obtain ⟨hw, hg, -, hps⟩ := h
      rw [List.flatMap_cons, Text.ink_append, Text.ink_append, ink_word hw, ink_gap hg, ih hps,
        List.append_nil, List.map_cons, List.flatten_cons]

/-- Every gap but the last takes at least one byte. -/
theorem size_pieces {ps : List Piece} (h : Parted ps) (hne : ps ≠ []) :
    Text.size (ps.map (·.word)).flatten + ps.length + Text.size (lastGap ps) ≤
      Text.size (ps.flatMap fun p => p.word ++ p.gap) + 1 := by
  induction ps with
  | nil => exact absurd rfl hne
  | cons p ps ih =>
      obtain ⟨-, -, hin, hps⟩ := h
      cases ps with
      | nil =>
          simp [lastGap]
          omega
      | cons q ps =>
          have hgap := Text.size_pos (hin (by simp))
          have hrest := ih hps (by simp)
          have hlast : lastGap (p :: q :: ps) = lastGap (q :: ps) := rfl
          rw [hlast, List.map_cons, List.flatten_cons, List.flatMap_cons, List.length_cons]
          simp only [Text.size_append] at hrest ⊢
          omega

/-- Single spaces are exactly what the sorted part takes beside its words. -/
theorem size_respace (g : Text) {ws : List Text} (h : ws ≠ []) :
    Text.size ((respace g ws).flatMap fun p => p.word ++ p.gap) + 1 =
      Text.size ws.flatten + ws.length + Text.size g := by
  induction ws with
  | nil => exact absurd rfl h
  | cons w ws ih =>
      cases ws with
      | nil =>
          simp [respace]
          omega
      | cons w' ws =>
          have hrest := ih (by simp)
          have hspace : Text.size [' '] = 1 := rfl
          rw [respace, List.flatMap_cons, List.flatten_cons, List.length_cons]
          simp only [Text.size_append, hspace] at hrest ⊢
          omega

theorem size_sortFree {r : Ranking} {free : List Piece} (h : Parted free) :
    Text.size ((sortFree r free).flatMap fun p => p.word ++ p.gap) ≤
      Text.size (free.flatMap fun p => p.word ++ p.gap) := by
  by_cases hfree : free = []
  · exact Nat.le_of_eq (by rw [hfree, sortFree_eq_nil.mpr rfl])
  · have hnew := size_respace (lastGap free) (sortBy_words_ne_nil (r := r) hfree)
    have hold := size_pieces h hfree
    rw [length_sortBy, List.length_map,
      Text.size_perm (sortBy_perm r (free.map (·.word))).flatten] at hnew
    unfold sortFree
    omega

/-- **A sorted class list conserves the list.** -/
theorem sort_conserves (r : Ranking) (ends : FixedEnds) (value : Text) :
    Conserves value (sort r ends value) := by
  cases hmark : Text.includes interpolationMark value with
  | true =>
      rw [sort_of_mark hmark]
      exact Conserves.refl value
  | false =>
      obtain ⟨head, free, tail, hparts⟩ := exists_partitioned ends (divide value).pieces
      have hproper := divide_proper value
      have hold := hproper.pieces
      rw [hparts.eq] at hold
      obtain ⟨hfront, -, -⟩ := parted_append.mp hold
      obtain ⟨-, hfree, -⟩ := parted_append.mp hfront
      have hvalue : value = (divide value).leading ++
          (head ++ free ++ tail).flatMap fun p => p.word ++ p.gap := by
        rw [← hparts.eq]
        exact (text_divide value).symm
      rw [sort_eq_text hmark hparts]
      unfold Division.text
      refine ⟨?_, ?_⟩
      · conv => rhs; rw [hvalue]
        rw [Text.ink_append, Text.ink_append, ink_pieces (parted_sorted hold), ink_pieces hold]
        exact (words_sorted_perm r head free tail).flatten.append_left _
      · conv => rhs; rw [hvalue]
        have hmiddle := size_sortFree (r := r) hfree
        simp only [List.flatMap_append, Text.size_append]
        omega

end ClassList

/-! ## Entries -/

namespace Entry

theorem interleave_perm {ms gs : List Text} (h : gs.length ≤ ms.length) :
    (interleave ms gs).Perm (ms.flatten ++ gs.flatten) := by
  induction ms generalizing gs with
  | nil =>
      have hgs : gs = [] := List.length_eq_zero_iff.mp (Nat.le_zero.mp h)
      rw [hgs]
      exact .refl _
  | cons m ms ih =>
      cases gs with
      | nil => simp [interleave]
      | cons g gs =>
          have hrest := ih (Nat.le_of_succ_le_succ h)
          rw [interleave, List.flatten_cons, List.flatten_cons, List.append_assoc,
            List.append_assoc]
          refine List.Perm.append_left m ?_
          -- the gap moves behind the members that are still to come
          exact (hrest.append_left g).trans (List.perm_append_comm_assoc g ms.flatten gs.flatten)

/-- The checks on a member make its ranges tile it. -/
theorem conserves_of_member? {source : Text} {r : Ranking} {e : Entry} {k : Rank} {new : Text}
    (h : member? source r e = some (k, new)) :
    ∃ old, Text.slice? source e.span = some old ∧ Conserves old new := by
  unfold member? sortedKey? at h
  simp only [Option.bind_eq_bind, Option.bind_eq_some_iff, Option.pure_def, Option.some.injEq,
    Prod.mk.injEq] at h
  obtain ⟨key', ⟨key, hkey, hkey'⟩, before, hbefore, after, hafter, -, rfl⟩ := h
  refine ⟨before ++ key ++ after, Text.slice?_join (Text.slice?_join hbefore hkey) hafter, ?_⟩
  refine Conserves.append (Conserves.append (Conserves.refl before) ?_) (Conserves.refl after)
  rw [← hkey']
  split
  · exact ClassList.sort_conserves r {} key
  · exact Conserves.refl key

theorem region_cons_cons (a b : Entry) (es : List Entry) :
    region (a :: b :: es) = ⟨a.span.start, (region (b :: es)).stop⟩ := by
  unfold region
  rw [List.head?_cons, List.head?_cons, List.getLast?_cons_cons]
  cases hlast : (b :: es).getLast? with
  | none => exact absurd (List.getLast?_eq_none_iff.mp hlast) (by simp)
  | some last => rfl

theorem region_start (b : Entry) (es : List Entry) : (region (b :: es)).start = b.span.start := by
  unfold region
  rw [List.head?_cons]
  cases hlast : (b :: es).getLast? with
  | none => exact absurd (List.getLast?_eq_none_iff.mp hlast) (by simp)
  | some last => rfl

/-- **Members and gaps tile the region of some entries.** -/
theorem region_tiled {source : Text} {r : Ranking} {e : Entry} {es : List Entry}
    {ms : List (Rank × Text)} {gs : List Text}
    (hms : (e :: es).mapM (member? source r) = some ms) (hgs : gaps? source (e :: es) = some gs) :
    ∃ olds, Text.slice? source (region (e :: es)) = some (interleave olds gs) ∧
      Conserves olds.flatten (ms.map Prod.snd).flatten ∧
      gs.length ≤ olds.length ∧ olds.length = ms.length := by
  induction es generalizing e ms gs with
  | nil =>
      simp only [List.mapM_cons, List.mapM_nil, Option.bind_eq_bind, Option.bind_eq_some_iff,
        Option.pure_def, Option.some.injEq] at hms
      obtain ⟨⟨k, new⟩, hmember, _, rfl, rfl⟩ := hms
      obtain ⟨old, hold, hcons⟩ := conserves_of_member? hmember
      injection hgs with hgs
      subst hgs
      refine ⟨[old], ?_, by simpa using hcons, by simp, by simp⟩
      show Text.slice? source e.span = some (old ++ [])
      rw [List.append_nil]
      exact hold
  | cons b es ih =>
      rw [List.mapM_cons] at hms
      simp only [Option.bind_eq_bind, Option.bind_eq_some_iff, Option.pure_def,
        Option.some.injEq] at hms
      obtain ⟨⟨k, new⟩, hmember, ms', hms', rfl⟩ := hms
      rw [gaps?] at hgs
      simp only [Option.bind_eq_bind, Option.bind_eq_some_iff, Option.pure_def,
        Option.some.injEq] at hgs
      obtain ⟨g, hgap, gs', hgs', rfl⟩ := hgs
      obtain ⟨old, hold, hcons⟩ := conserves_of_member? hmember
      obtain ⟨olds, hregion, hconss, hle, hlen⟩ := ih hms' hgs'
      refine ⟨old :: olds, ?_, ?_, by simpa using hle, by simpa using hlen⟩
      · rw [region_cons_cons, interleave]
        rw [← region_start b es] at hgap
        exact Text.slice?_join (Text.slice?_join hold hgap) hregion
      · simpa using hcons.append hconss

end Entry

/-! ## Edits -/

/-- An edit that conserves the text of its range, which is a valid one. -/
def Edit.Sound (source : Text) (e : Edit) : Prop :=
  ∃ old, Text.slice? source e.span = some old ∧ Conserves old e.text

theorem Edit.eq_of_unlessSame {span : Span} {old text : Text} {e : Edit}
    (h : Edit.unlessSame span old text = some e) : e = ⟨span, text⟩ := by
  unfold Edit.unlessSame at h
  split at h
  · exact absurd h (by simp)
  · exact (Option.some.inj h).symm

theorem ClassSpan.sound_of_edit? {source : Text} {r : Ranking} {c : ClassSpan} {e : Edit}
    (h : c.edit? source r = some e) : e.Sound source := by
  unfold ClassSpan.edit? at h
  obtain ⟨old, hold, hsame⟩ := Option.bind_eq_some_iff.mp h
  rw [Edit.eq_of_unlessSame hsame]
  exact ⟨old, hold, ClassList.sort_conserves r c.ends old⟩

theorem Entry.sound_of_edit? {source : Text} {r : Ranking} {es : List Entry} {e : Edit}
    (h : Entry.edit? source r es = some e) : e.Sound source := by
  unfold Entry.edit? at h
  simp only [Option.bind_eq_bind, Option.bind_eq_some_iff] at h
  obtain ⟨old, hold, ms, hms, gs, hgs, hsame⟩ := h
  rw [Edit.eq_of_unlessSame hsame]
  cases es with
  | nil =>
      -- no entries: the empty text in place of itself
      rw [List.mapM_nil] at hms
      injection hms with hms
      injection hgs with hgs
      subst hms hgs
      refine ⟨[], Text.slice?_eq_some.mpr ⟨[], source, rfl, rfl, rfl⟩, ?_⟩
      rw [ClassList.sortBy_nil]
      exact Conserves.refl []
  | cons a es =>
      -- the members change places, the gaps between them do not
      obtain ⟨olds, hregion, hcons, hle, hlen⟩ := Entry.region_tiled hms hgs
      refine ⟨_, hregion, ?_⟩
      have hsorted : ((ClassList.sortBy Prod.fst ms).map Prod.snd).Perm (ms.map Prod.snd) :=
        (ClassList.sortBy_perm Prod.fst ms).map _
      have hle' : gs.length ≤ ((ClassList.sortBy Prod.fst ms).map Prod.snd).length := by
        rw [hsorted.length_eq, List.length_map]
        omega
      refine (hcons.append (Conserves.refl gs.flatten)).of_perm
        (Entry.interleave_perm hle).symm ?_
      exact (hsorted.symm.flatten.append_right _).trans (Entry.interleave_perm hle').symm

theorem ClassUnit.sound_of_mem_edits {source : Text} {r : Ranking} {us : List ClassUnit}
    {e : Edit} (h : e ∈ ClassUnit.edits source r us) : e.Sound source := by
  unfold ClassUnit.edits at h
  obtain ⟨u, -, hu⟩ := List.mem_filterMap.mp h
  cases u with
  | list c => exact ClassSpan.sound_of_edit? hu
  | entries es => exact Entry.sound_of_edit? hu

/-! ## The pass over the source -/

namespace Edit

/-- A part that begins no earlier than another one ends keeps that one whole. -/
theorem append_after {pre rest a b : Text} (h : pre ++ rest = a ++ b)
    (hle : Text.size pre ≤ Text.size a) : ∃ kept, a = pre ++ kept ∧ rest = kept ++ b := by
  rcases List.append_eq_append_iff.mp h with ⟨kept, ha, hrest⟩ | ⟨extra, hpre, hb⟩
  · exact ⟨kept, ha, hrest⟩
  · -- `a` ends inside `pre`, which leaves room for nothing
    have hnone : extra = [] := by
      rw [hpre, Text.size_append] at hle
      exact Text.eq_nil_of_size_eq_zero (by omega)
    subst hnone
    exact ⟨[], by simpa using hpre.symm, by simpa using hb.symm⟩

/-- **The pass always succeeds and conserves what is behind the cursor.** The cursor is a
boundary at first and after each edit, and edits that are left out change nothing. -/
theorem splice_conserves {source : Text} {es : List Edit} (hes : ∀ e ∈ es, e.Sound source) :
    ∀ {pre rest : Text}, source = pre ++ rest →
      ∃ out, splice source (Text.size pre) es = some out ∧ Conserves rest out := by
  induction es with
  | nil =>
      intro pre rest hsource
      refine ⟨rest, ?_, Conserves.refl rest⟩
      rw [splice]
      exact Text.drop?_eq_some.mpr ⟨pre, hsource, rfl⟩
  | cons e es ih =>
      intro pre rest hsource
      have hrest : ∀ e ∈ es, e.Sound source := fun e' he' => hes e' (List.mem_cons_of_mem e he')
      rw [splice]
      split
      · exact ih hrest hsource
      · rename_i hmade
        -- the range of the edit is behind the cursor, so the text up to it can be kept
        obtain ⟨old, hold, hcons⟩ := hes e (by simp)
        obtain ⟨a, b, hab, ha, hstop⟩ := Text.slice?_eq_some.mp hold
        have hle : Text.size pre ≤ Text.size a := by
          simp only [Bool.or_eq_true, decide_eq_true_eq, not_or, Nat.not_lt] at hmade
          rw [ha]
          exact hmade.1
        rw [List.append_assoc] at hab
        obtain ⟨kept, hkept, hafter⟩ := append_after (hsource.symm.trans hab) hle
        have hslice : Text.slice? source ⟨Text.size pre, e.span.start⟩ = some kept := by
          refine Text.slice?_eq_some.mpr ⟨pre, old ++ b, ?_, rfl, ?_⟩
          · rw [hab, hkept]
          · rw [← ha, hkept, Text.size_append]
        have hsource' : source = (a ++ old) ++ b := by rw [hab, List.append_assoc]
        have hcursor : Text.size (a ++ old) = e.span.stop := by
          rw [Text.size_append, ha]
          exact hstop
        obtain ⟨out, hout, hconserves⟩ := ih hrest hsource'
        rw [hcursor] at hout
        refine ⟨kept ++ e.text ++ out, by rw [hslice, hout]; rfl, ?_⟩
        rw [hafter, ← List.append_assoc]
        exact ((Conserves.refl kept).append hcons).append hconserves

theorem applyAll_conserves {source : Text} {es : List Edit} (hes : ∀ e ∈ es, e.Sound source) :
    ∃ out, applyAll source es = some out ∧ Conserves source out := by
  have hsorted : ∀ e ∈ stableSort le es, e.Sound source :=
    fun e he => hes e ((stableSort_perm le es).mem_iff.mp he)
  have hstart : source = [] ++ source := rfl
  exact splice_conserves hsorted hstart

end Edit

/--
**Sorting never loses, doubles or invents text.**

For any units at all the edits can be made, the result has the same characters apart from
blanks, and it is no longer than the source. In particular that holds for the units that
a parser finds.
-/
theorem sorting_conserves_text (source : Text) (r : Ranking) :
    (∀ us : List ClassUnit, ∃ out,
      Edit.applyAll source (ClassUnit.edits source r us) = some out ∧
      out.ink.Perm source.ink ∧ out.size ≤ source.size) ∧
    (∀ p : Parser, ∃ out, p.sortClasses r source = some out ∧
      out.ink.Perm source.ink ∧ out.size ≤ source.size) := by
  have hunits : ∀ (r : Ranking) (us : List ClassUnit), ∃ out,
      Edit.applyAll source (ClassUnit.edits source r us) = some out ∧
      out.ink.Perm source.ink ∧ out.size ≤ source.size := by
    intro r us
    have hsound : ∀ e ∈ ClassUnit.edits source r us, e.Sound source :=
      fun _ he => ClassUnit.sound_of_mem_edits he
    obtain ⟨out, hout, hcons⟩ := Edit.applyAll_conserves hsound
    exact ⟨out, hout, hcons.ink, hcons.size⟩
  refine ⟨hunits r, fun p => ?_⟩
  unfold Parser.sortClasses
  split
  · exact ⟨source, rfl, .refl _, Nat.le_refl _⟩
  · exact hunits _ _

end ClassSort
