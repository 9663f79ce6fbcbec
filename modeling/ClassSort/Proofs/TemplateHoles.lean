import ClassSort.Proofs.Concatenation
import ClassSort.Proofs.UnitPlaces

/-!
# Holes of a template

The static parts of a template are sorted one by one, and between them stands what nobody knows yet.
A word that touches a hole is only half of a class, so it must stay where it is. It does, for every
template that the walk reaches in a well-formed tree. Nothing has to be asked of the words of a
static part, as it has to be for strings that are put together with `+`: the two ends that a part is
sorted with are fixed exactly if a word touches a hole there.

What is found inside a hole is not looked at here. It belongs to other units, and these have nothing
in common with the static parts (`Expr.WellFormed.holds_segment`).
-/

namespace ClassSort

theorem Text.readAt_id {source text : Text} {s : Span} (h : Text.slice? source s = some text) :
    source.readAt id s = text := by
  have hbounds := Text.bounds_of_slice? h
  unfold Text.readAt
  by_cases hempty : s.isEmpty = true
  · rw [if_pos hempty]
    unfold Span.isEmpty at hempty
    rw [decide_eq_true_eq] at hempty
    have hsize : Text.size text = 0 := by omega
    by_contra hne
    have := Text.size_pos (Ne.symm hne)
    omega
  · rw [if_neg hempty]
    show (Text.slice? source s).getD [] = text
    rw [h]
    rfl

namespace Script

open ClassList

/-- A first run is kept if it is fixed or if there is none. -/
theorem firstRun_sort {r : Ranking} {ends : FixedEnds} {text : Text}
    (h : ends.first = !Text.startsBlank text) : firstRun (sort r ends text) = firstRun text := by
  cases hblank : Text.startsBlank text with
  | false =>
      rw [hblank] at h
      exact firstRun_sort_of_fixed h
  | true =>
      have hnil := firstRun_of_startsBlank hblank
      rw [hnil]
      exact (rewritten_sort r ends text).firstRun_eq_nil.mpr hnil

theorem lastRun_sort {r : Ranking} {ends : FixedEnds} {text : Text}
    (h : ends.last = !Text.endsBlank text) : lastRun (sort r ends text) = lastRun text := by
  cases hblank : Text.endsBlank text with
  | false =>
      rw [hblank] at h
      exact lastRun_sort_of_fixed h
  | true =>
      have hnil := lastRun_of_endsBlank hblank
      rw [hnil]
      exact (rewritten_sort r ends text).lastRun_eq_nil.mpr hnil

/-! ## Static parts in the tree -/

/-- A static part of a reached template holds its own unit, and no other unit touches it. -/
theorem Expr.WellFormed.holds_segment {e : Expr} (h : e.WellFormed) {s : Span}
    {holes : List (Span × Expr)} (hreach : e.Reaches (.template s holes)) {g : Segment}
    (hg : g ∈ segments (s.start + 1) (s.stop - 1) false holes) (source : Text) :
    Stretch.Holds (e.span, e.units source) (g.span, g.units source) := by
  obtain ⟨shape, hholds⟩ := h.holds_of_reaches hreach source .plainString
  exact hholds.trans ((h.of_reaches hreach).holds source shape
    (mem_holeStretches.mpr (.inl ⟨g, hg, rfl⟩)))

section

variable {e : Expr} {s : Span} {holes : List (Span × Expr)} {g : Segment} {source out : Text}
  {r : Ranking}

/-- A static part without escapes is sorted in its place. -/
theorem readAt_segment (h : e.WellFormed) (hreach : e.Reaches (.template s holes))
    (hg : g ∈ segments (s.start + 1) (s.stop - 1) false holes)
    (hout : Edit.applyAll source (ClassUnit.edits source r (e.units source)) = some out)
    {σ : Assignment} {t : Span} {ends : FixedEnds}
    (ht : Part.static t ends ∈ segmentParts σ source g.span g.afterHole g.beforeHole) :
    out.readAt (Edit.moved (ClassUnit.edits source r (e.units source))) t =
      sort r ends (source.readAt id t) := by
  have hordered (text : Text) := (lies_unitsAs h text .plainString).ordered
  obtain ⟨-, hlocated⟩ := located_segment ht
  exact readAt_edits (hordered source) (hordered _) (sublist_unitsAs source .plainString e) hout
    (hlocated.mono (h.holds_segment hreach hg source).units (h.holds_segment hreach hg _).units)

/-- A static part that is no class list stays. -/
theorem readAt_of_units_nil (h : e.WellFormed) (hreach : e.Reaches (.template s holes))
    (hg : g ∈ segments (s.start + 1) (s.stop - 1) false holes)
    (hout : Edit.applyAll source (ClassUnit.edits source r (e.units source)) = some out)
    (hnil : g.units source = []) :
    out.readAt (Edit.moved (ClassUnit.edits source r (e.units source))) g.span =
      source.readAt id g.span := by
  unfold Text.readAt
  by_cases hempty : g.span.isEmpty = true
  · rw [if_pos hempty, if_pos hempty]
  · have hforward : g.span.start ≤ g.span.stop := by
      unfold Span.isEmpty at hempty
      rw [decide_eq_true_eq] at hempty
      omega
    rw [if_neg hempty, if_neg hempty]
    have hsame := slice?_of_unchanged (lies_unitsAs h source .plainString).ordered hout hforward
      fun u hu _ _ => by
        rcases (h.holds_segment hreach hg source).apart u hu with hu | hu
        · rw [hnil] at hu
          cases hu
        · exact hu
    rw [show Expr.unitsAs source .plainString e = e.units source from rfl] at hsame
    rw [hsame]
    rfl

/-- **The runs that touch a hole stay.** -/
theorem runs_of_segment (h : e.WellFormed) (hreach : e.Reaches (.template s holes))
    (hg : g ∈ segments (s.start + 1) (s.stop - 1) false holes)
    (hout : Edit.applyAll source (ClassUnit.edits source r (e.units source)) = some out) :
    (g.afterHole = true →
      firstRun (out.readAt (Edit.moved (ClassUnit.edits source r (e.units source))) g.span) =
        firstRun (source.readAt id g.span)) ∧
    (g.beforeHole = true →
      lastRun (out.readAt (Edit.moved (ClassUnit.edits source r (e.units source))) g.span) =
        lastRun (source.readAt id g.span)) := by
  -- with an escape in it, or unreadable, the part is no class list
  have hstays (hnil : g.units source = []) := by
    have hread := readAt_of_units_nil h hreach hg hout hnil
    exact And.intro (fun _ : g.afterHole = true => congrArg firstRun hread)
      (fun _ : g.beforeHole = true => congrArg lastRun hread)
  cases htext : Text.slice? source g.span with
  | none =>
      refine hstays ?_
      unfold Segment.units segmentUnits
      rw [htext]
  | some text =>
      by_cases hescape : text.contains '\\' = true
      · refine hstays ?_
        unfold Segment.units segmentUnits
        rw [htext]
        dsimp only
        rw [hescape, Bool.or_true, if_pos rfl]
      · have hpart : Part.static g.span ⟨g.afterHole && !Text.startsBlank text,
            g.beforeHole && !Text.endsBlank text⟩ ∈
            segmentParts (always []) source g.span g.afterHole g.beforeHole := by
          unfold segmentParts
          rw [htext]
          dsimp only
          rw [if_neg hescape]
          exact List.mem_singleton.mpr rfl
        rw [readAt_segment h hreach hg hout hpart, Text.readAt_id htext]
        constructor
        · intro hafter
          exact firstRun_sort (by rw [hafter, Bool.true_and])
        · intro hbefore
          exact lastRun_sort (by rw [hbefore, Bool.true_and])

end

/-! ## The evaluated template -/

/-- Holes whose contents are taken as given. -/
def givenHoles (holes : List (Span × Expr)) : List (Span × Expr) :=
  holes.map fun h => (h.1, .other h.1)

theorem holesParts_givenHoles_cons (σ : Assignment) (source : Text) (start stop : Nat)
    (afterHole : Bool) (h : Span × Expr) (holes : List (Span × Expr)) :
    holesParts σ source start stop afterHole (givenHoles (h :: holes)) =
      segmentParts σ source ⟨start, h.1.start⟩ afterHole true ++
        (.given (σ.text h.1) :: holesParts σ source h.1.stop stop true (givenHoles holes)) := by
  show segmentParts σ source ⟨start, h.1.start⟩ afterHole true ++ [.given (σ.text h.1)] ++
    holesParts σ source h.1.stop stop true (givenHoles holes) = _
  rw [List.append_assoc]
  rfl

/-- The static parts of the evaluated template are its segments. -/
theorem exists_segment_of_static {σ : Assignment} {source : Text} {stop : Nat} {t : Span}
    {ends : FixedEnds} {holes : List (Span × Expr)} : ∀ {start : Nat} {afterHole : Bool},
    Part.static t ends ∈ holesParts σ source start stop afterHole (givenHoles holes) →
    ∃ g ∈ segments start stop afterHole holes,
      Part.static t ends ∈ segmentParts σ source g.span g.afterHole g.beforeHole := by
  induction holes with
  | nil =>
      intro start afterHole ht
      exact ⟨_, List.mem_cons_self, ht⟩
  | cons h holes ih =>
      intro start afterHole ht
      rw [holesParts_givenHoles_cons] at ht
      rcases List.mem_append.mp ht with ht | ht
      · exact ⟨_, List.mem_cons_self, ht⟩
      · have hrest : Part.static t ends ∈
            holesParts σ source h.1.stop stop true (givenHoles holes) := by
          rcases List.mem_cons.mp ht with ht | ht
          · exact absurd ht (by simp)
          · exact ht
        obtain ⟨g, hg, hpart⟩ := ih hrest
        exact ⟨g, List.mem_cons_of_mem _ hg, hpart⟩

/-- A static part keeps the runs at its seams, since it is fixed where it touches a hole and nothing
is on its other side. -/
theorem keepsGlued_segment {r : Ranking} {σ : Assignment} {source before : Text} {s : Span}
    {afterHole beforeHole : Bool} {rest : List Part}
    (hbefore : afterHole = false → before = []) (hbehind : beforeHole = false → rest = [])
    (hrest : ∀ before, KeepsGlued r (source.readAt id) before rest) :
    KeepsGlued r (source.readAt id) before
      (segmentParts σ source s afterHole beforeHole ++ rest) := by
  unfold segmentParts
  split
  · exact hrest before
  · rename_i text htext
    split
    · exact ⟨trivial, hrest _⟩
    · refine ⟨⟨?_, ?_⟩, hrest _⟩
      · intro hfree htouch
        rw [Text.readAt_id htext]
        cases afterHole with
        | false =>
            rw [hbefore rfl] at htouch
            exact absurd rfl htouch
        | true => exact firstRun_sort (Bool.true_and _)
      · intro hfree htouch
        rw [Text.readAt_id htext]
        cases beforeHole with
        | false =>
            rw [hbehind rfl] at htouch
            exact absurd rfl htouch
        | true => exact lastRun_sort (Bool.true_and _)

/-- So a template keeps them all, whatever its holes are filled with. -/
theorem keepsGlued_holesParts (r : Ranking) {σ : Assignment} {source : Text} {stop : Nat}
    {holes : List (Span × Expr)} : ∀ {start : Nat} {afterHole : Bool} {before : Text},
    (afterHole = false → before = []) →
    KeepsGlued r (source.readAt id) before
      (holesParts σ source start stop afterHole (givenHoles holes)) := by
  induction holes with
  | nil =>
      intro start afterHole before hbefore
      have hlast : KeepsGlued r (source.readAt id) before
          (segmentParts σ source ⟨start, stop⟩ afterHole false ++ []) :=
        keepsGlued_segment hbefore (fun _ => rfl) (fun _ => trivial)
      rw [List.append_nil] at hlast
      exact hlast
  | cons h holes ih =>
      intro start afterHole before hbefore
      rw [holesParts_givenHoles_cons]
      exact keepsGlued_segment hbefore nofun fun before' => ⟨trivial, ih nofun⟩

/-- **Holes are fixed boundaries.** The units of a well-formed tree can be sorted, by any ranking.
In each template that the walk reaches, the run that touches a hole is then what it was, on either
side of every hole. Whatever texts the holes stand for, the evaluated template has the same words as
before, each as often. -/
theorem template_holes_are_boundaries {e : Expr} (h : e.WellFormed) {s : Span}
    {holes : List (Span × Expr)} (hreach : e.Reaches (.template s holes)) (source : Text)
    (r : Ranking) :
    ∃ out, Edit.applyAll source (ClassUnit.edits source r (e.units source)) = some out ∧
      (∀ g ∈ segments (s.start + 1) (s.stop - 1) false holes,
        (g.afterHole = true →
          firstRun (out.readAt (Edit.moved (ClassUnit.edits source r (e.units source))) g.span) =
            firstRun (source.readAt id g.span)) ∧
        (g.beforeHole = true →
          lastRun (out.readAt (Edit.moved (ClassUnit.edits source r (e.units source))) g.span) =
            lastRun (source.readAt id g.span))) ∧
      ∀ σ : Assignment,
        ((tokens ((Expr.template s (givenHoles holes)).value σ source
            (out.readAt (Edit.moved (ClassUnit.edits source r (e.units source)))))).map
              (·.text)).Perm
          ((tokens ((Expr.template s (givenHoles holes)).value σ source
            (source.readAt id))).map (·.text)) := by
  have hsound : ∀ e' ∈ ClassUnit.edits source r (e.units source), e'.Sound source :=
    fun _ => ClassUnit.sound_of_mem_edits
  obtain ⟨out, hout, -⟩ := Edit.applyAll_conserves hsound
  refine ⟨out, hout, fun g hg => runs_of_segment h hreach hg hout, fun σ => ?_⟩
  rw [map_text_tokens, map_text_tokens, value_eq, value_eq]
  refine words_textOf_perm ?_ (keepsGlued_holesParts r fun _ => rfl)
  intro t ends ht
  obtain ⟨g, hg, hpart⟩ := exists_segment_of_static ht
  exact readAt_segment h hreach hg hout hpart

def holedSource : Text := "f(`d b a-$\x7bx\x7d-e b a d$\x7by\x7d b a`)".toList

/-- The holes of the template, and what they hold. -/
def holedHoles : List (Span × Expr) := [(⟨9, 13⟩, .other ⟨11, 12⟩), (⟨21, 25⟩, .other ⟨23, 24⟩)]

/-- A template as an argument. Words touch its first hole on both sides and the second on one. -/
def holedTree : Expr := .call ⟨0, 31⟩ (.other ⟨0, 1⟩) [.template ⟨2, 30⟩ holedHoles]

theorem wellFormed_holedTree : holedTree.WellFormed := by
  refine .call (by decide) (.other (by decide)) fun a ha => ?_
  obtain rfl := List.mem_singleton.mp ha
  refine .template (by decide) ?_ ?_
  · intro h hh
    rcases List.mem_pair.mp hh with rfl | rfl
    · exact by decide
    · exact by decide
  · intro h hh
    rcases List.mem_pair.mp hh with rfl | rfl
    · exact .other (by decide)
    · exact .other (by decide)

theorem template_holes_are_boundaries_holed :
    holedTree.WellFormed ∧ holedTree.Reaches (.template ⟨2, 30⟩ holedHoles) ∧
      Edit.applyAll holedSource
          (ClassUnit.edits holedSource letters (holedTree.units holedSource)) =
        some "f(`b d a-$\x7bx\x7d-e a b d$\x7by\x7d a b`)".toList ∧
      ∃ out, Edit.applyAll holedSource
          (ClassUnit.edits holedSource letters (holedTree.units holedSource)) = some out ∧
        ∀ σ : Assignment,
          ((tokens ((Expr.template ⟨2, 30⟩ (givenHoles holedHoles)).value σ holedSource
              (out.readAt (Edit.moved
                (ClassUnit.edits holedSource letters (holedTree.units holedSource)))))).map
                  (·.text)).Perm
            ((tokens ((Expr.template ⟨2, 30⟩ (givenHoles holedHoles)).value σ holedSource
              (holedSource.readAt id))).map (·.text)) := by
  have hreach : holedTree.Reaches (.template ⟨2, 30⟩ holedHoles) :=
    .argument List.mem_cons_self (.refl _)
  obtain ⟨out, hout, -, hwords⟩ :=
    template_holes_are_boundaries wellFormed_holedTree hreach holedSource letters
  exact ⟨wellFormed_holedTree, hreach, by decide +kernel, out, hout, hwords⟩

end Script

end ClassSort
