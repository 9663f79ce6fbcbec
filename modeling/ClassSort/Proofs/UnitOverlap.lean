import ClassSort.Proofs.KeywordPlaces
import ClassSort.Proofs.MarkupSorting
import ClassSort.Proofs.ScriptUnits

/-!
# Units that overlap

In markup no two class units overlap: each lies in the value of an attribute, values
follow each other, and the units of a bound value follow each other too. In a script and
in a stylesheet two units can overlap, in one way each. An object that is sorted by its
keys may hold an element with a class attribute in the value of an entry. And the
parameters of a rule may hold the keyword of another rule.

So **units overlap only where one is nested in the other**, and what sorting leaves out
is exactly what is nested in something that is sorted.

How a source is read makes no difference to this, as long as what is read has its order: the
keywords of a stylesheet (`KeywordsIn`), the attributes of markup, and the units of a bound value
or of the value of an attribute (`Script.Block`).
-/

namespace ClassSort

/-! ## Stylesheets -/

namespace Stylesheet

/-- The unit of a rule covers the parameters without the flag, if there is more than blanks. -/
theorem exists_params_of_ruleUnit? {source : Text} {start : Nat} {u : ClassUnit}
    (h : ruleUnit? source start = some u) :
    ∃ cs params, Text.drop? source start = some cs ∧ params? cs = some params ∧
      Text.allBlank (withoutFlag params) ≠ true ∧
      u = .list ⟨⟨start, start + Text.size (withoutFlag params)⟩, .atRuleParams, .atRule, {}⟩ := by
  unfold ruleUnit? at h
  simp only [Option.bind_eq_bind, Option.bind_eq_some_iff] at h
  obtain ⟨cs, hcs, params, hparams, h⟩ := h
  split at h
  · exact absurd h (by simp)
  · rename_i hink
    exact ⟨cs, params, hcs, hparams, hink, (Option.some.inj h).symm⟩

theorem start_of_ruleUnit? {source : Text} {start : Nat} {u : ClassUnit}
    (h : ruleUnit? source start = some u) : u.span.start = start := by
  obtain ⟨cs, params, -, -, -, rfl⟩ := exists_params_of_ruleUnit? h
  rfl

variable {source : Text} {ks : List AtKeyword}

/-- The second unit belongs to a rule whose keyword stands in the first. -/
def HoldsKeyword (source : Text) (ks : List AtKeyword) (u v : ClassUnit) : Prop :=
  ∃ k ∈ ks, u.span.start ≤ k.span.start ∧ k.span.stop < u.span.stop ∧
    ruleUnit? source k.span.stop = some v

theorem HoldsKeyword.start_lt (hks : KeywordsIn source ks) {u v : ClassUnit}
    (h : HoldsKeyword source ks u v) : u.span.start < v.span.start := by
  obtain ⟨k, hk, hstart, -, hv⟩ := h
  have hforward := hks.start_lt_stop hk
  have hvstart := start_of_ruleUnit? hv
  omega

/-- **Two units of a stylesheet overlap only where one holds the keyword of the other**, whatever
keywords were found. -/
theorem pairwise_unitsOf (hks : KeywordsIn source ks) (keywords : List Text) :
    (unitsOf keywords source ks).Pairwise
      fun u v => u.span.Separate v.span ∨ HoldsKeyword source ks u v := by
  unfold unitsOf
  rw [List.pairwise_filterMap]
  refine (hks.ordered.sublist List.filter_sublist).imp_of_mem ?_
  intro k k' _ hk' hkk' u hu v hv
  have hustart := start_of_ruleUnit? hu
  have hvstart := start_of_ruleUnit? hv
  by_cases hsep : u.span.stop ≤ v.span.start
  · exact .inl (.inl hsep)
  · exact .inr ⟨k', List.mem_of_mem_filter hk', by omega, by omega, hv⟩

end Stylesheet

/-! ## Markup -/

/-- Moving a unit moves its range. Only an object without entries has no range to move. -/
theorem ClassUnit.span_map (f : Nat → Nat) {u : ClassUnit} (h : 0 < u.span.start) :
    (u.map f).span = u.span.map f := by
  cases u with
  | list c => rfl
  | entries es =>
      cases es with
      | nil => exact absurd h (Nat.lt_irrefl 0)
      | cons e es =>
          cases hlast : (e :: es).getLast? with
          | none => exact absurd (List.getLast?_eq_none_iff.mp hlast) (by simp)
          | some last =>
              simp only [map, span, Entry.region, List.head?_map, List.getLast?_map, hlast,
                List.head?_cons, Option.map_some]
              rfl

namespace Markup

theorem size_bracketed (value : Text) : Text.size ('(' :: value ++ [')']) = value.size + 2 := by
  simp only [Text.size_append, Text.size_cons, Text.size_nil]
  have hopen : '('.utf8Size = 1 := rfl
  have hclose : ')'.utf8Size = 1 := rfl
  omega

/-- The units of a bound value lie in it, in order. -/
structure InValue (value : Span) (us : List ClassUnit) : Prop where
  inside : ∀ u ∈ us,
    value.start ≤ u.span.start ∧ u.span.start ≤ u.span.stop ∧ u.span.stop ≤ value.stop
  ordered : us.Pairwise fun u v => u.span.stop ≤ v.span.start

theorem InValue.nil (value : Span) : InValue value [] := ⟨by simp, .nil⟩

/-- Units that keep clear of the parentheses around a value lie in the value, when they are moved to
where it stands. -/
theorem inValue_of_block {us : List ClassUnit} {els : List Span} {value : Span}
    (hvalue : value.start ≤ value.stop)
    (h : Script.Block 0 (value.stop - value.start + 2) us els) :
    InValue value (us.map (·.map fun offset => offset + value.start - 1)) := by
  -- the parenthesis in front of the value is taken off again
  have hspan : ∀ u ∈ us, (u.map fun offset => offset + value.start - 1).span =
      ⟨u.span.start + value.start - 1, u.span.stop + value.start - 1⟩ :=
    fun u hu => ClassUnit.span_map _ (h.inside u hu).1
  constructor
  · intro u hu
    obtain ⟨u', hu', rfl⟩ := List.mem_map.mp hu
    have hin := h.inside u' hu'
    rw [hspan u' hu']
    dsimp only
    omega
  · rw [List.pairwise_map]
    refine h.ordered.imp_of_mem ?_
    intro u v hu hv huv
    rw [hspan u hu, hspan v hv]
    dsimp only
    omega

/-- The units of the value of a bound attribute. -/
def boundUnits (source : Text) (a : Attribute) : List ClassUnit :=
  ((Text.slice? source a.value).map (bindingValueUnits · a.value.start)).getD []

theorem inValue_boundUnits (source : Text) (a : Attribute) :
    InValue a.value (boundUnits source a) := by
  unfold boundUnits
  cases hvalue : Text.slice? source a.value with
  | none => exact .nil _
  | some value =>
      show InValue a.value (bindingValueUnits value a.value.start)
      unfold bindingValueUnits
      split
      · exact .nil _
      · obtain ⟨els, hblock⟩ := Script.block_programUnits .javaScript ('(' :: value ++ [')'])
        have hsize := (Text.bounds_of_slice? hvalue).1
        rw [size_bracketed, show value.size = a.value.stop - a.value.start by omega] at hblock
        exact inValue_of_block (by omega) hblock

section Attributes

variable {as : List Attribute} {bound : Attribute → List ClassUnit}

theorem pairwise_bound (has : as.Pairwise fun a b => Precedes a.value b.value)
    (hbound : ∀ a, InValue a.value (bound a)) :
    (as.flatMap bound).Pairwise fun u v => u.span.stop ≤ v.span.start := by
  refine List.pairwise_flatMap.mpr ⟨fun a _ => (hbound a).ordered, has.imp ?_⟩
  intro a b hab u hu v hv
  have hu' := (hbound a).inside u hu
  have hv' := (hbound b).inside v hv
  have hstop := hab.2
  omega

/-- **In markup no two units overlap**, if no attribute is both plain and bound. That holds for any
attributes one behind the other and any units in their values. -/
theorem pairwise_markup (has : as.Pairwise fun a b => Precedes a.value b.value)
    (hbound : ∀ a, InValue a.value (bound a)) {names bindings : List String}
    (h : ∀ name, listed names name = true → String.ofList name ∉ bindings) :
    (unitsOf names as ++
        (as.filter fun a => bindings.contains (String.ofList a.name)).flatMap bound).Pairwise
      fun u v => u.span.Separate v.span := by
  have hattributes : as.Pairwise fun a b => a.value.Separate b.value :=
    has.imp fun hab => .inl hab.2
  refine List.pairwise_append.mpr ⟨pairwise_unitsOf hattributes, ?_, fun u hu v hv => ?_⟩
  · exact (pairwise_bound (has.sublist List.filter_sublist) hbound).imp .inl
  · -- the two belong to different attributes
    obtain ⟨a, ha, rfl⟩ := List.mem_map.mp hu
    obtain ⟨b, hb, hv⟩ := List.mem_flatMap.mp hv
    obtain ⟨ha, hlisted⟩ := List.mem_filter.mp ha
    obtain ⟨hb, hbinding⟩ := List.mem_filter.mp hb
    have hne : a ≠ b := by
      rintro rfl
      exact h a.name (Bool.and_eq_true_iff.mp hlisted).1 (List.contains_iff_mem.mp hbinding)
    have hin := (hbound b).inside v hv
    have hseparate : a.value.Separate b.value := Span.Separate.of_pairwise hattributes ha hb hne
    show a.value.Separate v.span
    rcases hseparate with hsep | hsep
    · exact .inl (by omega)
    · exact .inr (by omega)

end Attributes

theorem pairwise_found (names bindings : List String)
    (h : ∀ name, listed names name = true → String.ofList name ∉ bindings) (source : Text) :
    (attributeUnits names source ++ bindingUnits bindings source).Pairwise
      fun u v => u.span.Separate v.span :=
  pairwise_markup (pairwise_attributes source) (inValue_boundUnits source) h

end Markup

/-! ## Languages -/

namespace Language

/-- The second unit of a source is nested in the first. -/
def Encloses (l : Language) (source : Text) (u v : ClassUnit) : Prop :=
  match l with
  | .markup _ => False
  | .script _ => u.HoldsInEntry v
  | .stylesheet => Stylesheet.HoldsKeyword source (Stylesheet.atKeywords source) u v

variable {l : Language} {source : Text} {u v : ClassUnit}

/-- What is nested begins behind the beginning. -/
theorem Encloses.start_lt (h : l.Encloses source u v) : u.span.start < v.span.start := by
  cases l with
  | markup d => exact h.elim
  | script d => exact h.1
  | stylesheet =>
      exact Stylesheet.HoldsKeyword.start_lt (Stylesheet.keywordsIn_atKeywords source) h

/-- What is nested begins before the end. -/
theorem Encloses.lt_stop (h : l.Encloses source u v) (hv : v.span.start ≤ v.span.stop) :
    v.span.start < u.span.stop := by
  cases l with
  | markup d => exact h.elim
  | script d => exact Nat.lt_of_le_of_lt hv h.2.1
  | stylesheet =>
      obtain ⟨k, -, -, hstop, hunit⟩ := h
      have hvstart := Stylesheet.start_of_ruleUnit? hunit
      omega

/-- No attribute that holds a class list is a bound one. -/
theorem not_bound {bindings : List String}
    (h : ∀ b ∈ bindings, Markup.listed ["class"] b.toList = false) (name : Text)
    (hname : Markup.listed ["class"] name = true) : String.ofList name ∉ bindings := by
  intro hmem
  have hfalse := h _ hmem
  rw [String.toList_ofList, hname] at hfalse
  exact absurd hfalse (by simp)

/-- Before they are put in order, units are separate or nested. -/
theorem pairwise_found (l : Language) (source : Text) :
    (l.profile.finders.flatMap (l.find source)).Pairwise
      fun u v => u.span.Separate v.span ∨ l.Encloses source u v := by
  cases l with
  | markup d =>
      refine List.Pairwise.imp .inl ?_
      cases d with
      | html =>
          show (Markup.attributeUnits ["class"] source ++ []).Pairwise _
          rw [List.append_nil]
          exact (List.pairwise_append.mp (Markup.pairwise_found ["class"] [] (by simp) source)).1
      | vue =>
          show (Markup.attributeUnits ["class"] source ++
            (Markup.bindingUnits [":class", "v-bind:class"] source ++ [])).Pairwise _
          rw [List.append_nil]
          exact Markup.pairwise_found _ _ (not_bound (by decide)) source
      | angular =>
          show (Markup.attributeUnits ["class"] source ++
            (Markup.bindingUnits ["[ngClass]", "[class]"] source ++ [])).Pairwise _
          rw [List.append_nil]
          exact Markup.pairwise_found _ _ (not_bound (by decide)) source
  | script d =>
      show (Script.attributeUnits d ["class", "className"] source ++ []).Pairwise _
      rw [List.append_nil]
      exact Script.pairwise_attributeUnits d ["class", "className"] source
  | stylesheet =>
      show (Stylesheet.units ["@apply".toList] source ++ []).Pairwise _
      rw [List.append_nil]
      exact Stylesheet.pairwise_unitsOf (Stylesheet.keywordsIn_atKeywords source) _

/-- **Units overlap only where one is nested in the other.** -/
theorem pairwise_units (l : Language) (source : Text) :
    (l.units source).Pairwise fun u v => u.span.Separate v.span ∨ l.Encloses source u v :=
  ClassUnit.pairwise_nested_inOrder (fun _ _ => Encloses.start_lt) (pairwise_found l source)

end Language

namespace Parser

/-- The edits that sorting a source makes. -/
def edits (p : Parser) (r : Ranking) (source : Text) : List Edit :=
  Edit.made source (ClassUnit.edits source r.ofSource (p.language.units source))

/--
**Units overlap only where they are nested, and only what is nested can be left out.**

Of any two units of a source, in any language, the ranges are separate or the second is
nested in the first: in the value of an entry in a script, behind a keyword inside the
parameters of another rule in a stylesheet, and never in markup. Sorting makes the edits
of all units, except for those that are nested in a unit whose own edit is made.
-/
theorem overlapping_units_are_nested (p : Parser) (source : Text) :
    (p.language.units source).Pairwise
        (fun u v => u.span.Separate v.span ∨ p.language.Encloses source u v) ∧
      ∀ r : Ranking,
        (∃ out, p.sortClasses r source = some out ∧
          Edit.spliceEvery source 0 (p.edits r source) = some out) ∧
        ∀ v ∈ p.language.units source, ∀ e, v.edit? source r.ofSource = some e →
          (e ∈ p.edits r source ↔
            ¬ ∃ u ∈ p.language.units source, p.language.Encloses source u v ∧
              ∃ e' ∈ p.edits r source, u.edit? source r.ofSource = some e') := by
  have hpairs := p.language.pairwise_units source
  refine ⟨hpairs, fun r => ⟨?_, fun v hv e he => ?_⟩⟩
  · obtain ⟨out, hout, hpass⟩ := ClassUnit.exists_spliceEvery source r.ofSource
      (p.language.units source)
    exact ⟨out, by rw [sortClasses_eq, hout], hpass⟩
  · refine ClassUnit.mem_made_iff ?_ hpairs hv he
    intro u v hencloses hforward
    exact ⟨hencloses.start_lt, hencloses.lt_stop hforward⟩

/-- The class list of an element in the value of an entry lies in the range of the object.
The entries are swapped, so the list stays as it is until the second run. The parameters
of a rule that is not closed reach over those of the next. -/
theorem list_in_entry_left_unsorted :
    ¬ (Parser.babel.language.units
        "<i class=\x7b\x7b'b': <b class='d c'/>, 'a': 0\x7d\x7d/>".toList).Pairwise
          (fun u v => u.span.Separate v.span) ∧
      Parser.babel.sortClasses
          (Ranking.ofNames ["a".toList, "b".toList, "c".toList, "d".toList])
          "<i class=\x7b\x7b'b': <b class='d c'/>, 'a': 0\x7d\x7d/>".toList =
        some "<i class=\x7b\x7b'a': 0, 'b': <b class='d c'/>\x7d\x7d/>".toList ∧
      Parser.babel.sortClasses
          (Ranking.ofNames ["a".toList, "b".toList, "c".toList, "d".toList])
          "<i class=\x7b\x7b'a': 0, 'b': <b class='d c'/>\x7d\x7d/>".toList =
        some "<i class=\x7b\x7b'a': 0, 'b': <b class='c d'/>\x7d\x7d/>".toList ∧
      ¬ (Parser.css.language.units "@apply b @apply a;".toList).Pairwise
          (fun u v => u.span.Separate v.span) := by
  have hunits : Parser.babel.language.units
      "<i class=\x7b\x7b'b': <b class='d c'/>, 'a': 0\x7d\x7d/>".toList =
        [.entries [⟨⟨11, 32⟩, ⟨⟨12, 13⟩, true⟩⟩, ⟨⟨34, 40⟩, ⟨⟨35, 36⟩, true⟩⟩],
         .list ⟨⟨26, 29⟩, .plainString, .string, {}⟩] := by decide +kernel
  have hrules : Parser.css.language.units "@apply b @apply a;".toList =
      [.list ⟨⟨6, 17⟩, .atRuleParams, .atRule, {}⟩,
       .list ⟨⟨15, 17⟩, .atRuleParams, .atRule, {}⟩] := by decide +kernel
  refine ⟨?_, by decide +kernel, by decide +kernel, ?_⟩
  · rw [hunits]
    decide
  · rw [hrules]
    decide

end Parser

end ClassSort
