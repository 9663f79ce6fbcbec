import ClassSort.Proofs.SearchOrder

/-!
# Switching built-in families off

A family that is off is passed over in the search for a base. Nothing else in a vocabulary depends
on which families are on: not how a class is read, not its variants, not the plugins. So with fewer
families **the search is the same search among fewer rules**. A base that was found in a family that
is still on, in a plugin or as a property is found there again. One that was found in a family that
is now off goes on to a later place, if there is one. And what was not found at all is not found
now.

It does not matter how the families are named. A table of switches and a list of the families that
are on give the same ranks if they leave the same built-in families on.
-/

namespace ClassSort

/-- A configuration with other built-in families on. -/
def Config.withFamilies (c : Config) (on : CorePlugins) : Config := { c with corePlugins := on }

/-- Every built-in family that is on in `b` is on in `a`. -/
def CorePlugins.Within (b a : CorePlugins) : Prop :=
  ∀ family ∈ Family.all, b.isEnabled family.name = true → a.isEnabled family.name = true

/-- The two leave the same built-in families on. -/
def CorePlugins.SameFamilies (a b : CorePlugins) : Prop :=
  ∀ family ∈ Family.all, a.isEnabled family.name = b.isEnabled family.name

theorem CorePlugins.SameFamilies.symm {a b : CorePlugins} (h : a.SameFamilies b) :
    b.SameFamilies a := fun family hfamily => (h family hfamily).symm

theorem CorePlugins.SameFamilies.within {a b : CorePlugins} (h : a.SameFamilies b) : b.Within a :=
  fun family hfamily hon => (h family hfamily).trans hon

/-- A place that is not in a built-in family that is off. -/
def Origin.IsOn (on : CorePlugins) : Origin → Prop
  | .core _ i _ => ∃ family, Family.all[i]? = some family ∧ on.isEnabled family.name = true
  | .plugin _ _ _ => True
  | .property => True

theorem Origin.IsOn.mono {a b : CorePlugins} (hwithin : b.Within a) {o : Origin} (h : o.IsOn b) :
    o.IsOn a := by
  cases o with
  | core layer i j =>
      obtain ⟨family, hfamily, hon⟩ := h
      exact ⟨family, hfamily, hwithin family (List.mem_of_getElem? hfamily) hon⟩
  | plugin layer i j => trivial
  | property => trivial

namespace Vocabulary

variable {c : Config} {a b : CorePlugins} {base : Text} {negative : Bool}

/-- **A rule matches if it did and its family is still on.** -/
theorem coreMatches_withFamilies {i j : Nat} :
    (ofConfig (c.withFamilies b)).CoreMatches base negative i j ↔
      ∃ family rule, Family.all[i]? = some family ∧ b.isEnabled family.name = true ∧
        family.rules[j]? = some rule ∧
        rule.recognizes (Theme.ofConfig c.theme) base negative = true := Iff.rfl

/-- With more families on, whatever matched still does. -/
theorem coreMatches_of_within (hwithin : b.Within a) {i j : Nat}
    (h : (ofConfig (c.withFamilies b)).CoreMatches base negative i j) :
    (ofConfig (c.withFamilies a)).CoreMatches base negative i j := by
  obtain ⟨family, rule, hfamily, hon, hrule, hrec⟩ := coreMatches_withFamilies.mp h
  have hon' := hwithin family (List.mem_of_getElem? hfamily) hon
  exact coreMatches_withFamilies.mpr ⟨family, rule, hfamily, hon', hrule, hrec⟩

/-- Where a built-in family recognizes a base, that family is on. -/
theorem isOn_of_origin? {o : Origin}
    (h : (ofConfig (c.withFamilies b)).origin? base negative = some o) : o.IsOn b := by
  rw [origin?_eq] at h
  rcases Option.or_eq_some_iff.mp h with hcore | ⟨-, hlate⟩
  · obtain ⟨layer, i, j, rfl, hmatch, -⟩ := first_of_coreOrigin? hcore
    obtain ⟨family, -, hfamily, hon, -⟩ := coreMatches_withFamilies.mp hmatch
    exact ⟨family, hfamily, hon⟩
  · have hstage := stage_of_lateOrigin? hlate
    cases o with
    | core layer i j => exact absurd hstage (Nat.lt_irrefl 0)
    | plugin layer i j => trivial
    | property => trivial

/-- A base that no built-in family recognizes is not recognized by fewer of them. -/
theorem coreOrigin?_eq_none_of_within (hwithin : b.Within a)
    (h : (ofConfig (c.withFamilies a)).coreOrigin? base negative = none) :
    (ofConfig (c.withFamilies b)).coreOrigin? base negative = none := by
  cases hcore : (ofConfig (c.withFamilies b)).coreOrigin? base negative with
  | none => rfl
  | some o =>
      obtain ⟨o', ho', -⟩ := coreOrigin?_noLater (fun _ _ => coreMatches_of_within hwithin) hcore
      exact absurd (h.symm.trans ho') (by simp)

/-- **A base stays where it is found if no family there is switched off.** -/
theorem origin?_of_within (hwithin : b.Within a) {o : Origin}
    (h : (ofConfig (c.withFamilies a)).origin? base negative = some o) (hon : o.IsOn b) :
    (ofConfig (c.withFamilies b)).origin? base negative = some o := by
  have hlate : (ofConfig (c.withFamilies b)).lateOrigin? base negative =
      (ofConfig (c.withFamilies a)).lateOrigin? base negative := rfl
  rw [origin?_eq] at h
  rw [origin?_eq, hlate]
  rcases Option.or_eq_some_iff.mp h with hcore | ⟨hmiss, hrest⟩
  · obtain ⟨layer, i, j, rfl, hmatch, -⟩ := first_of_coreOrigin? hcore
    have hstill : (ofConfig (c.withFamilies b)).CoreMatches base negative i j := by
      obtain ⟨family, rule, hfamily, -, hrule, hrec⟩ := coreMatches_withFamilies.mp hmatch
      obtain ⟨family', hfamily', hon'⟩ := hon
      obtain rfl := Option.some.inj (hfamily.symm.trans hfamily')
      exact coreMatches_withFamilies.mpr ⟨family, rule, hfamily, hon', hrule, hrec⟩
    rw [coreOrigin?_of_fewer (fun _ _ => coreMatches_of_within hwithin) hcore hstill]
    rfl
  · rw [coreOrigin?_eq_none_of_within hwithin hmiss, hrest]
    rfl

/-- A class is read with the same variants whichever families are on, so it stays where it is
recognized if its base does. -/
theorem recognizes_of_within (hwithin : b.Within a) {name : Text} {variants : VariantOrder}
    {o : Origin} (h : (ofConfig (c.withFamilies a)).Recognizes name variants o) (hon : o.IsOn b) :
    (ofConfig (c.withFamilies b)).Recognizes name variants o := by
  obtain ⟨candidate, hparse, hvariants, ho⟩ := h
  exact ⟨candidate, hparse, hvariants, origin?_of_within hwithin ho hon⟩

/-- **What fewer families recognize, more of them do**, in the same place or in an earlier one that
is off for the fewer. -/
theorem recognizes_with_more (hwithin : b.Within a) {name : Text} {variants : VariantOrder}
    {o : Origin} (h : (ofConfig (c.withFamilies b)).Recognizes name variants o) :
    ∃ o', (ofConfig (c.withFamilies a)).Recognizes name variants o' ∧ o'.NoLater o ∧
      (o'.IsOn b → o' = o) := by
  obtain ⟨candidate, hparse, hvariants, ho⟩ := h
  have hmore : ∀ i j,
      (ofConfig (c.withFamilies b)).CoreMatches candidate.base candidate.negative i j →
      (ofConfig (c.withFamilies a)).CoreMatches candidate.base candidate.negative i j :=
    fun _ _ => coreMatches_of_within hwithin
  obtain ⟨o', ho', hle⟩ := origin?_noLater hmore rfl ho
  refine ⟨o', ⟨candidate, hparse, hvariants, ho'⟩, hle, fun hon => ?_⟩
  have hsame := origin?_of_within hwithin ho' hon
  exact Option.some.inj (hsame.symm.trans ho)

theorem rank_eq_none_of_within (hwithin : b.Within a) {name : Text}
    (h : (ofConfig (c.withFamilies a)).rank name = none) :
    (ofConfig (c.withFamilies b)).rank name = none := by
  cases hrank : (ofConfig (c.withFamilies b)).rank name with
  | none => rfl
  | some k =>
      obtain ⟨variants, o, hrec, -⟩ := rank_eq_some_iff.mp hrank
      obtain ⟨o', hrec', -, -⟩ := recognizes_with_more hwithin hrec
      exact absurd (h.symm.trans hrec'.rank_eq) (by simp)

/-- **Only which families are on matters**, not how they are named. -/
theorem rank_of_sameFamilies (h : a.SameFamilies b) (name : Text) :
    (ofConfig (c.withFamilies a)).rank name = (ofConfig (c.withFamilies b)).rank name := by
  cases hrank : (ofConfig (c.withFamilies a)).rank name with
  | none => exact (rank_eq_none_of_within h.within hrank).symm
  | some k =>
      obtain ⟨variants, o, hrec, rfl⟩ := rank_eq_some_iff.mp hrank
      obtain ⟨candidate, hparse, hvariants, ho⟩ := hrec
      have hon : o.IsOn b := (isOn_of_origin? ho).mono h.symm.within
      exact (recognizes_of_within h.within ⟨candidate, hparse, hvariants, ho⟩ hon).rank_eq.symm

/--
**Switching families off changes the rank of no other class.**

Let every built-in family that is on in `b` be on in `a`. A class whose rank with `a` comes from a
family that is on in `b`, from a plugin or from a written-out property has the same rank with `b`. A
class without a rank with `a` has none with `b`. One that has a rank with `b` has one with `a`, with
the same variants, and from a place that is no later; if it is another one, its family is off in
`b`. And a table of switches gives every class the rank that a list gives which leaves the same
families on.
-/
theorem switched_off_families_leave_other_ranks (c : Config) (name : Text) :
    (∀ a b : CorePlugins, b.Within a →
      (∀ variants o, (ofConfig (c.withFamilies a)).Recognizes name variants o → o.IsOn b →
        (ofConfig (c.withFamilies a)).rank name = some (key variants o) ∧
        (ofConfig (c.withFamilies b)).rank name = some (key variants o)) ∧
      ((ofConfig (c.withFamilies a)).rank name = none →
        (ofConfig (c.withFamilies b)).rank name = none) ∧
      (∀ variants o, (ofConfig (c.withFamilies b)).Recognizes name variants o →
        ∃ o', (ofConfig (c.withFamilies a)).Recognizes name variants o' ∧ o'.NoLater o ∧
          (o'.IsOn b → o' = o))) ∧
    (∀ flags names, CorePlugins.SameFamilies (.toggles flags) (.allow names) →
      (ofConfig (c.withFamilies (.toggles flags))).rank name =
        (ofConfig (c.withFamilies (.allow names))).rank name) := by
  refine ⟨fun a b hwithin => ⟨?_, ?_, ?_⟩, ?_⟩
  · intro variants o hrec hon
    exact ⟨hrec.rank_eq, (recognizes_of_within hwithin hrec hon).rank_eq⟩
  · exact rank_eq_none_of_within hwithin
  · intro variants o hrec
    exact recognizes_with_more hwithin hrec
  · intro flags names hsame
    exact rank_of_sameFamilies hsame name

/-- A plugin with a class of its own and one that a built-in family has as well. -/
def clashingConfig : Config where
  plugins := [{ name := "layout", classes := ["shell", "container"] }]

/-- Every built-in family but the container. -/
def withoutContainer : List String := (Family.all.map (·.name)).filter (· != "container")

theorem sameFamilies_withoutContainer :
    CorePlugins.SameFamilies (.toggles [("container", false)]) (.allow withoutContainer) := by
  intro family hfamily
  have hlisted : withoutContainer.contains family.name = (family.name != "container") := by
    rw [Bool.eq_iff_iff, List.contains_iff_mem, withoutContainer, List.mem_filter]
    exact and_iff_right (List.mem_map_of_mem hfamily)
  show (Json.field? family.name [("container", false)]).getD true = withoutContainer.contains _
  rw [hlisted]
  by_cases hname : "container" = family.name
  · simp [Json.field?, ← hname]
  · simp [Json.field?, hname, Ne.symm hname]

theorem within_padding :
    CorePlugins.Within (.allow ["padding"]) (.allow ["container", "padding"]) := by
  intro family _ hon
  exact List.contains_iff_mem.mpr (List.mem_cons_of_mem _ (List.contains_iff_mem.mp hon))

theorem recognizes_clashingConfig {on : CorePlugins} {name : Text} {o : Origin}
    (hparse : Candidate.parse? ":".toList "".toList name = some ⟨[], name, false, false⟩)
    (ho : (ofConfig (clashingConfig.withFamilies on)).origin? name false = some o) :
    (ofConfig (clashingConfig.withFamilies on)).Recognizes name (.ofBits []) o := by
  have hcolon : (clashingConfig.withFamilies on).separatorInForce = ":" := rfl
  refine ⟨⟨[], name, false, false⟩, ?_, rfl, ho⟩
  show Candidate.parse? (clashingConfig.withFamilies on).separatorInForce.toList "".toList name = _
  rw [hcolon, hparse]

/-- Without the container, the plugin keeps its own class and takes over the other one. -/
theorem switched_off_families_leave_other_ranks_clashing :
    (ofConfig (clashingConfig.withFamilies (.allow ["padding"]))).rank "shell".toList =
        some (key (.ofBits []) (.plugin .utilities 0 0)) ∧
      (ofConfig (clashingConfig.withFamilies (.allow ["padding"]))).rank "flex".toList = none ∧
      (∃ o, (ofConfig (clashingConfig.withFamilies (.allow ["container", "padding"]))).Recognizes
          "container".toList (.ofBits []) o ∧ o.NoLater (.plugin .utilities 0 0)) ∧
      (ofConfig (clashingConfig.withFamilies (.toggles [("container", false)]))).rank
          "container".toList =
        (ofConfig (clashingConfig.withFamilies (.allow withoutContainer))).rank
          "container".toList := by
  have hkeeps := (switched_off_families_leave_other_ranks clashingConfig "shell".toList).1 _ _
    within_padding
  have hunknown := (switched_off_families_leave_other_ranks clashingConfig "flex".toList).1 _ _
    within_padding
  have hclash := switched_off_families_leave_other_ranks clashingConfig "container".toList
  have hshell :
      (ofConfig (clashingConfig.withFamilies (.allow ["container", "padding"]))).Recognizes
        "shell".toList (.ofBits []) (.plugin .utilities 0 0) :=
    recognizes_clashingConfig (by decide +kernel) (by decide +kernel)
  have hcontainer : (ofConfig (clashingConfig.withFamilies (.allow ["padding"]))).Recognizes
      "container".toList (.ofBits []) (.plugin .utilities 0 0) :=
    recognizes_clashingConfig (by decide +kernel) (by decide +kernel)
  obtain ⟨o, hrec, hle, -⟩ := (hclash.1 _ _ within_padding).2.2 _ _ hcontainer
  exact ⟨(hkeeps.1 _ _ hshell trivial).2, hunknown.2.1 (by decide +kernel), ⟨o, hrec, hle⟩,
    hclash.2 _ _ sameFamilies_withoutContainer⟩

end Vocabulary

end ClassSort
