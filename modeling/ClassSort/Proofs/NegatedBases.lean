import ClassSort.Proofs.SearchOrder

/-!
# Negative utilities

A base with a minus sign is looked for in the same places as the base itself, but fewer rules know
it: rules of complete names, plugins and written-out properties do not, and of the rules with values
only those that allow a sign. So **the search for the negated base is the search for the base among
fewer rules**. It cannot find what the other does not find, and what the other finds first it finds
as well, unless the rule there does not know the sign.
-/

namespace ClassSort

/-- Whether a rule knows negative values. -/
def Rule.negatable : Rule → Bool
  | .names _ => false
  | .valued _ _ negatable => negatable

/-- **A rule that allows a sign takes the same bases with it and without it**, and any other takes
none with it. -/
theorem Rule.recognizes_negative (theme : Theme) (base : Text) (rule : Rule) :
    rule.recognizes theme base true = (rule.negatable && rule.recognizes theme base false) := by
  cases rule with
  | names all => rfl
  | valued root values negatable => cases negatable <;> rfl

/-- The rule of this place knows negative values. Plugins and properties have no such rules. -/
def Origin.AllowsNegation : Origin → Prop
  | .core _ i j => ∃ family rule, Family.all[i]? = some family ∧ family.rules[j]? = some rule ∧
      rule.negatable = true
  | .plugin _ _ _ => False
  | .property => False

namespace Vocabulary

variable {v : Vocabulary} {base : Text}

theorem coreMatches_of_negative {i j : Nat} (h : v.CoreMatches base true i j) :
    v.CoreMatches base false i j := by
  obtain ⟨family, rule, hfamily, hon, hrule, hrec⟩ := h
  rw [Rule.recognizes_negative, Bool.and_eq_true] at hrec
  exact ⟨family, rule, hfamily, hon, hrule, hrec.2⟩

theorem origin?_negative (v : Vocabulary) (base : Text) :
    v.origin? base true = v.coreOrigin? base true := by
  rw [origin?_eq]
  exact Option.or_none

/-- The place where a base is found is a built-in one if its rule knows negative values. -/
theorem coreOrigin?_of_allowsNegation {o : Origin} (h : v.origin? base false = some o)
    (hneg : o.AllowsNegation) : v.coreOrigin? base false = some o := by
  rw [origin?_eq] at h
  rcases Option.or_eq_some_iff.mp h with hcore | ⟨-, hlate⟩
  · exact hcore
  · have hstage := stage_of_lateOrigin? hlate
    cases o with
    | core layer i j => exact absurd hstage (Nat.lt_irrefl 0)
    | plugin layer i j => exact hneg.elim
    | property => exact hneg.elim

/-- **The first rule for a base is the first for the negated base if it knows the sign**: no rule
before it takes the base, with a sign or without. -/
theorem coreOrigin?_negative {o : Origin} (h : v.coreOrigin? base false = some o)
    (hneg : o.AllowsNegation) : v.coreOrigin? base true = some o := by
  obtain ⟨layer, i, j, rfl, ⟨family, rule, hfamily, hon, hrule, hrec⟩, -⟩ :=
    first_of_coreOrigin? h
  refine coreOrigin?_of_fewer (fun _ _ => coreMatches_of_negative) h ?_
  obtain ⟨family', rule', hfamily', hrule', hallowed⟩ := hneg
  obtain rfl := Option.some.inj (hfamily.symm.trans hfamily')
  obtain rfl := Option.some.inj (hrule.symm.trans hrule')
  refine ⟨family, rule, hfamily, hon, hrule, ?_⟩
  rw [Rule.recognizes_negative, hallowed, hrec]
  rfl

/--
**A sign takes a base to no earlier place.**

If a negated base is recognized then the base itself is, and it is looked at no later. If the rule
that recognizes the base knows negative values then the negated base is recognized at the very same
place: layer, family and rule.
-/
theorem negated_base_is_no_earlier (c : Config) (base : Text) :
    (∀ o', (ofConfig c).origin? base true = some o' →
      ∃ o, (ofConfig c).origin? base false = some o ∧ o.NoLater o') ∧
    (∀ o, (ofConfig c).origin? base false = some o → o.AllowsNegation →
      (ofConfig c).origin? base true = some o) := by
  constructor
  · intro o' ho'
    rw [origin?_negative] at ho'
    obtain ⟨o, ho, hle⟩ := coreOrigin?_noLater (fun _ _ => coreMatches_of_negative) ho'
    exact ⟨o, by rw [origin?_eq, ho]; rfl, hle⟩
  · intro o ho hneg
    rw [origin?_negative]
    exact coreOrigin?_negative (coreOrigin?_of_allowsNegation ho hneg) hneg

/-- The rule of the top margin knows negative values. -/
theorem negated_base_is_no_earlier_margin :
    (ofConfig {}).origin? "mt-4".toList false = some (.core .utilities 17 5) ∧
    (ofConfig {}).origin? "mt-4".toList true = some (.core .utilities 17 5) ∧
    ∃ o, (ofConfig {}).origin? "mt-4".toList false = some o ∧
      o.NoLater (.core .utilities 17 5) := by
  have hplain : (ofConfig {}).origin? "mt-4".toList false = some (.core .utilities 17 5) := by
    decide +kernel
  have hnegated := (negated_base_is_no_earlier {} "mt-4".toList).2 _ hplain ⟨_, _, rfl, rfl, rfl⟩
  exact ⟨hplain, hnegated, (negated_base_is_no_earlier {} "mt-4".toList).1 _ hnegated⟩

end Vocabulary

end ClassSort
