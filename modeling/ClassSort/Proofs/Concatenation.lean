import ClassSort.Proofs.ExpressionValue
import ClassSort.Proofs.ScriptUnits

/-!
# Concatenation and the classes of an expression

Strings of an expression are sorted one by one, and the text that the expression stands for
is put together from them afterwards. Where two parts touch, the last word of one and the
first word of the next are one class. A part of a template is sorted with the words that touch
a hole in their places. A string is not: neither next to `+` nor in a hole is any of its words
fixed.

So the classes of the whole are kept **as long as sorting moves no word of a string that
touches something** (`KeepsGlued`). The argument: what is read in a static part after the edits
is the sorted text of what was read there before (`readAt_edits`), and texts that are rewritten
one by one keep the words of the whole if no run changes at a seam.
-/

namespace ClassSort

namespace Script

open ClassList

/-! ## Reading behind the edits of an expression -/

section

variable {source out : Text} {r : Ranking} {us covered : List ClassUnit} {s : Span}
  {ends : FixedEnds}

/-- Where no unit changes anything, what is read stays. -/
theorem slice?_of_unchanged (hordered : us.Pairwise fun u v => u.span.stop ≤ v.span.start)
    (hout : Edit.applyAll source (ClassUnit.edits source r us) = some out)
    (hforward : s.start ≤ s.stop)
    (hfree : ∀ u ∈ us, ∀ e, u.edit? source r = some e → u.span.Separate s) :
    Text.slice? out (s.map (Edit.moved (ClassUnit.edits source r us))) =
      Text.slice? source s := by
  have hmade := ClassUnit.spliceEvery_edits hordered hout
  refine Edit.slice?_moved hmade (ClassUnit.inRow_edits hordered) hforward ?_
  intro e he
  obtain ⟨u, hu, hedit⟩ := List.mem_filterMap.mp he
  rw [ClassUnit.span_of_edit? hedit]
  exact hfree u hu e hedit

/-- A class list is sorted in its place. -/
theorem slice?_of_list (hordered : us.Pairwise fun u v => u.span.stop ≤ v.span.start)
    (hout : Edit.applyAll source (ClassUnit.edits source r us) = some out) {c : ClassSpan}
    (hc : .list c ∈ us) (hforward : c.span.start ≤ c.span.stop) :
    Text.slice? out (c.span.map (Edit.moved (ClassUnit.edits source r us))) =
      (Text.slice? source c.span).map (sort r c.ends) := by
  cases hedit : (ClassUnit.list c).edit? source r with
  | none =>
      -- the list is in order or cannot be read, and no other unit reaches into it
      have hsame : Text.slice? source c.span = (Text.slice? source c.span).map (sort r c.ends) := by
        cases htext : Text.slice? source c.span with
        | none => rfl
        | some text =>
            have hnone : (Text.slice? source c.span).bind
                (fun old => Edit.unlessSame c.span old (sort r c.ends old)) = none := hedit
            rw [htext, Option.bind_some, Edit.unlessSame] at hnone
            split at hnone
            · rename_i hsorted
              rw [Option.map_some, hsorted]
            · exact absurd hnone (by simp)
      rw [← hsame]
      refine slice?_of_unchanged hordered hout hforward ?_
      intro u hu e he
      have hne : u ≠ .list c := by
        rintro rfl
        rw [hedit] at he
        exact absurd he (by simp)
      exact Span.Separate.of_pairwise (f := ClassUnit.span) (hordered.imp .inl) hu hc hne
  | some e =>
      have hmade := ClassUnit.spliceEvery_edits hordered hout
      have hmem : e ∈ ClassUnit.edits source r us := List.mem_filterMap.mpr ⟨_, hc, hedit⟩
      have hthere := Edit.slice?_moved_self hmade (ClassUnit.inRow_edits hordered) hmem
      obtain ⟨old, hold, hsame⟩ := Option.bind_eq_some_iff.mp hedit
      rw [Edit.eq_of_unlessSame hsame] at hthere
      rw [hthere, hold]
      rfl

/-- A blank part stays, because whatever has its range is blank too. -/
theorem slice?_of_blank (hordered : us.Pairwise fun u v => u.span.stop ≤ v.span.start)
    (hcovered : covered.Pairwise fun u v => u.span.stop ≤ v.span.start)
    (hsub : (us.map unfixed).Sublist (covered.map unfixed))
    (hout : Edit.applyAll source (ClassUnit.edits source r us) = some out) {c : ClassSpan}
    (hc : .list c ∈ covered) {text : Text} (htext : Text.slice? source c.span = some text)
    (hblank : Text.allBlank text = true) :
    Text.slice? out (c.span.map (Edit.moved (ClassUnit.edits source r us))) =
      Text.slice? source c.span := by
  have hbounds := Text.bounds_of_slice? htext
  refine slice?_of_unchanged hordered hout (by omega) ?_
  intro u hu e he
  obtain ⟨v, hv, huv⟩ := List.mem_map.mp (hsub.mem (List.mem_map_of_mem hu))
  have hspan : v.span = u.span := by rw [← span_unfixed, huv, span_unfixed]
  by_cases hvc : v = .list c
  · -- the unit would be the blank part itself
    exfalso
    subst hvc
    cases u with
    | entries es => exact absurd huv (by simp [unfixed])
    | list c' =>
        have hspan' : c.span = c'.span := hspan
        obtain ⟨old, hold, hsame⟩ := Option.bind_eq_some_iff.mp he
        rw [← hspan', htext] at hold
        obtain rfl := Option.some.inj hold
        rw [sort_of_allBlank r c'.ends hblank] at hsame
        exact absurd hsame (by simp [Edit.unlessSame])
  · rw [← hspan]
    exact Span.Separate.of_pairwise (f := ClassUnit.span) (hcovered.imp .inl) hv hc hvc

/-- **What is read in a static part behind the edits is the sorted text of what was read.** -/
theorem readAt_edits (hordered : us.Pairwise fun u v => u.span.stop ≤ v.span.start)
    (hcovered : covered.Pairwise fun u v => u.span.stop ≤ v.span.start)
    (hsub : (us.map unfixed).Sublist (covered.map unfixed))
    (hout : Edit.applyAll source (ClassUnit.edits source r us) = some out)
    (h : Located source us covered s ends) :
    out.readAt (Edit.moved (ClassUnit.edits source r us)) s =
      sort r ends (source.readAt id s) := by
  have hnil : sort r ends [] = [] := sort_of_allBlank r ends rfl
  unfold Text.readAt
  by_cases hempty : s.isEmpty = true
  · rw [if_pos hempty, if_pos hempty, hnil]
  · have hforward : s.start ≤ s.stop := by
      unfold Span.isEmpty at hempty
      rw [decide_eq_true_eq] at hempty
      omega
    rw [if_neg hempty, if_neg hempty]
    show _ = sort r ends ((Text.slice? source s).getD [])
    cases h with
    | empty h => exact absurd h hempty
    | unit c hmem hspan hends =>
        subst hspan hends
        rw [slice?_of_list hordered hout hmem hforward]
        cases Text.slice? source c.span with
        | none => exact hnil.symm
        | some text => rfl
    | blank text c htext hblank hmem hspan =>
        subst hspan
        rw [slice?_of_blank hordered hcovered hsub hout hmem htext hblank, htext]
        exact (sort_of_allBlank r ends hblank).symm

end

/-! ## Words that touch something -/

/-- Sorting leaves the words of a static part alone that touch what is before or behind it.
Where an end is fixed there is nothing to ask for. -/
def Part.KeepsEnds (r : Ranking) (read : Span → Text) (before behind : Text) : Part → Prop
  | .static s ends =>
    (ends.first = false → lastRun before ≠ [] →
      firstRun (sort r ends (read s)) = firstRun (read s)) ∧
    (ends.last = false → firstRun behind ≠ [] →
      lastRun (sort r ends (read s)) = lastRun (read s))
  | .given _ => True

/-- Sorting leaves every word of the parts alone that touches another part; `before` is the
text in front of them. -/
def KeepsGlued (r : Ranking) (read : Span → Text) : Text → List Part → Prop
  | _, [] => True
  | before, p :: ps =>
    p.KeepsEnds r read before (textOf read ps) ∧ KeepsGlued r read (before ++ p.text read) ps

instance (r : Ranking) (read : Span → Text) (before behind : Text) :
    (p : Part) → Decidable (p.KeepsEnds r read before behind)
  | .static _ _ => inferInstanceAs (Decidable (_ ∧ _))
  | .given _ => inferInstanceAs (Decidable True)

def decidableKeepsGlued (r : Ranking) (read : Span → Text) :
    (before : Text) → (ps : List Part) → Decidable (KeepsGlued r read before ps)
  | _, [] => inferInstanceAs (Decidable True)
  | before, p :: ps =>
    have := decidableKeepsGlued r read (before ++ p.text read) ps
    inferInstanceAs (Decidable (p.KeepsEnds r read before (textOf read ps) ∧ _))

instance (r : Ranking) (read : Span → Text) (before : Text) (ps : List Part) :
    Decidable (KeepsGlued r read before ps) := decidableKeepsGlued r read before ps

/-- Some parts, each with its text before and after. -/
def rewrites (read read' : Span → Text) (parts : List Part) : List (Text × Text) :=
  parts.map fun p => (p.text read, p.text read')

theorem flatMap_fst_rewrites (read read' : Span → Text) (parts : List Part) :
    (rewrites read read' parts).flatMap Prod.fst = textOf read parts := by
  unfold rewrites textOf
  rw [List.flatMap_map]

theorem flatMap_snd_rewrites (read read' : Span → Text) (parts : List Part) :
    (rewrites read read' parts).flatMap Prod.snd = textOf read' parts := by
  unfold rewrites textOf
  rw [List.flatMap_map]

section

variable {r : Ranking} {read read' : Span → Text} {parts : List Part}

/-- Every part is rewritten. -/
theorem rewritten_of_mem_rewrites
    (hread : ∀ s ends, Part.static s ends ∈ parts → read' s = sort r ends (read s)) :
    ∀ p ∈ rewrites read read' parts, Rewritten p.1 p.2 := by
  intro p hp
  obtain ⟨part, hpart, rfl⟩ := List.mem_map.mp hp
  cases part with
  | given t => exact .refl t
  | static s ends =>
      show Rewritten (read s) (read' s)
      rw [hread s ends hpart]
      exact rewritten_sort r ends (read s)

/-- No run changes at a seam: a fixed end keeps its run, and for the others it was asked. -/
theorem settled_rewrites
    (hread : ∀ s ends, Part.static s ends ∈ parts → read' s = sort r ends (read s))
    {before : Text} (h : KeepsGlued r read before parts) :
    Settled before (rewrites read read' parts) := by
  induction parts generalizing before with
  | nil => trivial
  | cons p ps ih =>
      obtain ⟨hends, hrest⟩ := h
      have hsettled := ih (fun s ends hs => hread s ends (List.mem_cons_of_mem p hs)) hrest
      have hbehind := flatMap_fst_rewrites read read' ps
      cases p with
      | given t => exact ⟨fun _ => rfl, fun _ => rfl, hsettled⟩
      | static s ends =>
          obtain ⟨hfirst, hlast⟩ := hends
          have hs := hread s ends List.mem_cons_self
          refine ⟨fun hne => ?_, fun hne => ?_, hsettled⟩
          · show firstRun (read' s) = firstRun (read s)
            rw [hs]
            cases hfixed : ends.first with
            | true => exact firstRun_sort_of_fixed hfixed
            | false => exact hfirst hfixed hne
          · show lastRun (read' s) = lastRun (read s)
            rw [hs]
            cases hfixed : ends.last with
            | true => exact lastRun_sort_of_fixed hfixed
            | false =>
                refine hlast hfixed ?_
                rw [← hbehind]
                exact hne

/-- **Parts that are sorted one by one keep the words of the whole.** -/
theorem words_textOf_perm
    (hread : ∀ s ends, Part.static s ends ∈ parts → read' s = sort r ends (read s))
    (h : KeepsGlued r read [] parts) :
    (words (textOf read' parts)).Perm (words (textOf read parts)) := by
  have hjoined := words_joined_perm (rewritten_of_mem_rewrites hread) (settled_rewrites hread h)
    (.refl _) Iff.rfl (fun _ => rfl)
  rw [flatMap_fst_rewrites, flatMap_snd_rewrites] at hjoined
  exact hjoined

end

/-! ## Class-valued expressions -/

/-- The expressions of a script whose strings are class lists. -/
inductive ClassValued (d : Dialect) (source : Text) (e : Expr) : Prop
  /-- The value of an attribute, in braces. -/
  | value (name : String) (s t u : Span) (rest : Lexemes)
      (hlex : ⟨.attribute name, s⟩ :: ⟨.punct "=", t⟩ :: ⟨.opening .container, u⟩ :: rest <:+
        lex d source)
      (hread : readContainer d u.start rest = some e)
  /-- A script that is an expression, such as the value of a binding. -/
  | program (hread : readProgram d (lex d source) = some e)

/-- The units of a class-valued expression follow each other, in any text. -/
theorem ClassValued.pairwise_units {d : Dialect} {source : Text} {e : Expr}
    (h : ClassValued d source e) (text : Text) :
    (e.units text).Pairwise fun u v => u.span.stop ≤ v.span.start := by
  obtain ⟨hordered, -⟩ := ordered_lex d source
  cases h with
  | value name s t u rest hlex hread =>
      obtain ⟨-, -, -, -, -, -, hrest⟩ := hordered.of_suffix hlex
      obtain ⟨els, mid, stop, behind, -, hblock⟩ := closes_container hread hrest
      exact (hblock text).ordered
  | program hread =>
      unfold readProgram at hread
      obtain ⟨⟨e', rest⟩, hsequence, hstatements⟩ := Option.bind_eq_some_iff.mp hread
      dsimp only at hstatements
      split at hstatements
      · obtain rfl := Option.some.inj hstatements
        obtain ⟨els, stop, -, hexpr⟩ := (readers d _).sequence hsequence hordered
        exact (hexpr.units text .plainString).ordered
      · exact absurd hstatements (by simp)

/--
**Concatenation keeps its classes, if sorting moves no word that touches something.**

For every class-valued expression, everything it leaves open and every ranking: the units of
the expression can be sorted in the source, and the text that the expression stands for
afterwards has the same classes, each as often as before. The condition is only about the ends
of strings. The ends of template parts that touch a hole are fixed, and where a blank or
nothing is at a seam, nothing is asked either.
-/
theorem concatenation_keeps_classes {d : Dialect} {source : Text} {e : Expr}
    (h : ClassValued d source e) (r : Ranking) (σ : Assignment)
    (hglued : KeepsGlued r (source.readAt id) [] (e.parts σ source)) :
    ∃ out, Edit.applyAll source (ClassUnit.edits source r (e.units source)) = some out ∧
      ((tokens (e.value σ source
          (out.readAt (Edit.moved (ClassUnit.edits source r (e.units source)))))).map
            (·.text)).Perm
        ((tokens (e.value σ source (source.readAt id))).map (·.text)) := by
  have hsound : ∀ e' ∈ ClassUnit.edits source r (e.units source), e'.Sound source :=
    fun _ => ClassUnit.sound_of_mem_edits
  obtain ⟨out, hout, -⟩ := Edit.applyAll_conserves hsound
  refine ⟨out, hout, ?_⟩
  rw [map_text_tokens, map_text_tokens, value_eq, value_eq]
  refine words_textOf_perm ?_ hglued
  intro s ends hs
  exact readAt_edits (h.pairwise_units source) (h.pairwise_units _)
    (sublist_unitsAs source .plainString e) hout (located .plainString e hs)

/-- The letters in their order. -/
def letters : Ranking := Ranking.ofNames ["a".toList, "b".toList, "d".toList, "e".toList]

/-- Whatever is left open stands for `t`. -/
def always (t : Text) : Assignment := ⟨fun _ => t, fun _ => true⟩

/-- A string with a blank behind it, and a template with a word that touches its hole. -/
def spacedSource : Text := "<i class=\x7b'b a ' + `e d c-$\x7bx\x7d`\x7d/>".toList

/-- What stands in its braces. -/
def spacedExpr : Expr :=
  .wrapped ⟨9, 32⟩ (some (.binary ⟨10, 31⟩ .plus (.string ⟨10, 16⟩ false)
    (.template ⟨19, 31⟩ [(⟨26, 30⟩, .other ⟨28, 29⟩)])))

theorem classValued_spacedExpr : ClassValued .javaScript spacedSource spacedExpr :=
  .value "class" ⟨3, 8⟩ ⟨8, 9⟩ ⟨9, 10⟩ ((lex .javaScript spacedSource).drop 4)
    ⟨(lex .javaScript spacedSource).take 1, by decide +kernel⟩ (by with_unfolding_all rfl)

/-- The string and the template are both sorted, and the word that touches the hole stays. -/
theorem concatenation_keeps_classes_spaced :
    ClassValued .javaScript spacedSource spacedExpr ∧
      KeepsGlued letters (spacedSource.readAt id) []
        (spacedExpr.parts (always "9".toList) spacedSource) ∧
      Edit.applyAll spacedSource
          (ClassUnit.edits spacedSource letters (spacedExpr.units spacedSource)) =
        some "<i class=\x7b'a b ' + `d e c-$\x7bx\x7d`\x7d/>".toList ∧
      ∃ out, Edit.applyAll spacedSource
          (ClassUnit.edits spacedSource letters (spacedExpr.units spacedSource)) = some out ∧
        ((tokens (spacedExpr.value (always "9".toList) spacedSource (out.readAt (Edit.moved
            (ClassUnit.edits spacedSource letters (spacedExpr.units spacedSource)))))).map
              (·.text)).Perm
          ((tokens (spacedExpr.value (always "9".toList) spacedSource
            (spacedSource.readAt id))).map (·.text)) := by
  have hglued : decide (KeepsGlued letters (spacedSource.readAt id) []
      (spacedExpr.parts (always "9".toList) spacedSource)) = true := by decide +kernel
  exact ⟨classValued_spacedExpr, of_decide_eq_true hglued, by decide +kernel,
    concatenation_keeps_classes classValued_spacedExpr letters (always "9".toList)
      (of_decide_eq_true hglued)⟩

/-- A string with a word that touches what is added to it. -/
def gluedSource : Text := "<i class=\x7b'b a' + x\x7d/>".toList

/-- What stands in its braces. -/
def gluedExpr : Expr :=
  .wrapped ⟨9, 20⟩ (some (.binary ⟨10, 19⟩ .plus (.string ⟨10, 15⟩ false) (.other ⟨18, 19⟩)))

theorem classValued_gluedExpr : ClassValued .javaScript gluedSource gluedExpr :=
  .value "class" ⟨3, 8⟩ ⟨8, 9⟩ ⟨9, 10⟩ ((lex .javaScript gluedSource).drop 4)
    ⟨(lex .javaScript gluedSource).take 1, by decide +kernel⟩ (by with_unfolding_all rfl)

/-- Without the condition classes are lost: `b ac` becomes `a bc`. -/
theorem glued_string_changes_classes :
    ClassValued .javaScript gluedSource gluedExpr ∧
      ∃ out, Edit.applyAll gluedSource
          (ClassUnit.edits gluedSource letters (gluedExpr.units gluedSource)) = some out ∧
        Parser.babel.sortClasses letters gluedSource = some out ∧
        ¬ ((tokens (gluedExpr.value (always "c".toList) gluedSource (out.readAt (Edit.moved
            (ClassUnit.edits gluedSource letters (gluedExpr.units gluedSource)))))).map
              (·.text)).Perm
          ((tokens (gluedExpr.value (always "c".toList) gluedSource
            (gluedSource.readAt id))).map (·.text)) := by
  have hold : (tokens (gluedExpr.value (always "c".toList) gluedSource
      (gluedSource.readAt id))).map (·.text) = ["b".toList, "ac".toList] := by decide +kernel
  have hnew : (tokens (gluedExpr.value (always "c".toList) gluedSource
      (Text.readAt "<i class=\x7b'a b' + x\x7d/>".toList (Edit.moved
        (ClassUnit.edits gluedSource letters (gluedExpr.units gluedSource)))))).map (·.text) =
      ["a".toList, "bc".toList] := by decide +kernel
  refine ⟨classValued_gluedExpr, "<i class=\x7b'a b' + x\x7d/>".toList, by decide +kernel, by decide +kernel, ?_⟩
  rw [hold, hnew]
  decide

end Script

end ClassSort
