import ClassSort.Vocabulary.Basic

/-!
# The search for a base

A base is looked for in the built-in families, rule by rule, then in the plugins, and last
among the written-out properties, and the first place that recognizes it decides. Two
facts are all that later files need to know about that search:

* what it finds among the built-in families is a rule that matches, and no rule before it
  does (`first_of_coreOrigin?`);
* if any built-in rule matches, it finds one (`coreOrigin?_of_matches`).

So a change that lets more rules match can only move a base forward: **whatever matched
still does, and the first match is the same or an earlier one**. A change that lets fewer rules
match leaves a base alone whose first match is not among those that are lost.
-/

namespace ClassSort

/-! ## The order of the search -/

namespace Origin

/-- Built-in families first, then plugins, then properties. -/
def stage : Origin → Nat
  | .core _ _ _ => 0
  | .plugin _ _ _ => 1
  | .property => 2

/-- The family or the plugin. -/
def place : Origin → Nat
  | .core _ family _ => family
  | .plugin _ index _ => index
  | .property => 0

def rule : Origin → Nat
  | .core _ _ rule => rule
  | .plugin _ _ rule => rule
  | .property => 0

/-- What is recognized at `a` is looked at no later than what is recognized at `b`. -/
def NoLater (a b : Origin) : Prop :=
  a.stage < b.stage ∨ a.stage = b.stage ∧
    (a.place < b.place ∨ a.place = b.place ∧ a.rule ≤ b.rule)

instance (a b : Origin) : Decidable (a.NoLater b) := inferInstanceAs (Decidable (_ ∨ _))

theorem NoLater.refl (a : Origin) : a.NoLater a :=
  .inr ⟨rfl, .inr ⟨rfl, Nat.le_refl _⟩⟩

end Origin

/-! ## Searching a list by place -/

/-- What is found is found at the first place where there is anything. -/
theorem exists_first_of_findSome? {α β : Type} {f : α × Nat → Option β} {l : List α} {b : β}
    (h : l.zipIdx.findSome? f = some b) :
    ∃ a i, l[i]? = some a ∧ f (a, i) = some b ∧
      ∀ a' i', l[i']? = some a' → i' < i → f (a', i') = none := by
  obtain ⟨before, ⟨a, i⟩, behind, hsplit, hf, hnone⟩ := List.findSome?_eq_some_iff.mp h
  have hmem : (a, i) ∈ l.zipIdx := by
    rw [hsplit]
    simp
  refine ⟨a, i, List.mem_zipIdx_iff_getElem?.mp hmem, hf, ?_⟩
  intro a' i' ha' hlt
  -- places grow along the list, so what has a smaller one stands in front
  have hgrow : (l.zipIdx.map Prod.snd).Pairwise (· < ·) := by
    rw [List.zipIdx_map_snd]
    exact List.pairwise_lt_range'
  rw [hsplit, List.map_append, List.map_cons] at hgrow
  have hmem' : (a', i') ∈ l.zipIdx := List.mem_zipIdx_iff_getElem?.mpr ha'
  rw [hsplit] at hmem'
  rcases List.mem_append.mp hmem' with hfront | hrest
  · exact hnone _ hfront
  · rcases List.mem_cons.mp hrest with heq | hbehind
    · obtain ⟨-, rfl⟩ := Prod.mk.inj heq
      omega
    · have hlater := (List.pairwise_cons.mp (List.pairwise_append.mp hgrow).2.1).1 i'
        (List.mem_map_of_mem (f := Prod.snd) hbehind)
      omega

namespace Vocabulary

variable {v v' : Vocabulary} {base : Text} {negative : Bool}

/-! ## Built-in families -/

/-- Rule `j` of family `i` is on and recognizes the base. -/
def CoreMatches (v : Vocabulary) (base : Text) (negative : Bool) (i j : Nat) : Prop :=
  ∃ family rule, Family.all[i]? = some family ∧ v.corePlugins.isEnabled family.name = true ∧
    family.rules[j]? = some rule ∧ rule.recognizes v.theme base negative = true

theorem first_of_coreOrigin? {o : Origin} (h : v.coreOrigin? base negative = some o) :
    ∃ layer i j, o = .core layer i j ∧ v.CoreMatches base negative i j ∧
      ∀ i' j', v.CoreMatches base negative i' j' → i < i' ∨ i = i' ∧ j ≤ j' := by
  obtain ⟨family, i, hfamily, hfound, hnone⟩ := exists_first_of_findSome? h
  dsimp only at hfound hnone
  split at hfound
  · rename_i hon
    obtain ⟨j, hj, rfl⟩ := Option.map_eq_some_iff.mp hfound
    obtain ⟨hlt, hrule, hbefore⟩ := List.findIdx?_eq_some_iff_getElem.mp hj
    refine ⟨family.layer, i, j, rfl, ?_, ?_⟩
    · exact ⟨family, family.rules[j], hfamily, hon, List.getElem?_eq_getElem hlt, hrule⟩
    · rintro i' j' ⟨family', rule', hfamily', hon', hrule', hrec'⟩
      rcases Nat.lt_trichotomy i i' with hlt' | rfl | hgt
      · exact .inl hlt'
      · -- the same family: the rule is no earlier than the first one
        obtain rfl := Option.some.inj (hfamily.symm.trans hfamily')
        refine .inr ⟨rfl, ?_⟩
        by_cases hj' : j ≤ j'
        · exact hj'
        · have hearlier := hbefore j' (Nat.lt_of_not_le hj')
          obtain ⟨hlen, hget⟩ := List.getElem?_eq_some_iff.mp hrule'
          rw [hget] at hearlier
          exact absurd hrec' hearlier
      · -- an earlier family would have been found
        have hmiss := hnone family' i' hfamily' hgt
        rw [if_pos hon', Option.map_eq_none_iff, List.findIdx?_eq_none_iff] at hmiss
        have hfalse := hmiss rule' (List.mem_of_getElem? hrule')
        rw [hrec'] at hfalse
        exact absurd hfalse (by simp)
  · exact absurd hfound (by simp)

theorem coreOrigin?_of_matches {i j : Nat} (h : v.CoreMatches base negative i j) :
    ∃ o, v.coreOrigin? base negative = some o := by
  obtain ⟨family, rule, hfamily, hon, hrule, hrec⟩ := h
  refine Option.isSome_iff_exists.mp (List.findSome?_isSome_iff.mpr ⟨(family, i), ?_, ?_⟩)
  · exact List.mem_zipIdx_iff_getElem?.mpr hfamily
  · dsimp only
    rw [if_pos hon, Option.isSome_map, List.findIdx?_isSome]
    exact List.any_eq_true.mpr ⟨rule, List.mem_of_getElem? hrule, hrec⟩

/-- **Where more rules match, the first match is no later.** -/
theorem coreOrigin?_noLater {base' : Text} {negative' : Bool} {o : Origin}
    (hmore : ∀ i j, v.CoreMatches base negative i j → v'.CoreMatches base' negative' i j)
    (h : v.coreOrigin? base negative = some o) :
    ∃ o', v'.coreOrigin? base' negative' = some o' ∧ o'.NoLater o := by
  obtain ⟨layer, i, j, rfl, hmatch, -⟩ := first_of_coreOrigin? h
  obtain ⟨o', ho'⟩ := coreOrigin?_of_matches (hmore i j hmatch)
  obtain ⟨layer', i', j', rfl, -, hfirst⟩ := first_of_coreOrigin? ho'
  exact ⟨_, ho', .inr ⟨rfl, hfirst i j (hmore i j hmatch)⟩⟩

/-- The layer of a built-in place is the layer of its family. -/
theorem layer_of_coreOrigin? {layer : Layer} {i j : Nat}
    (h : v.coreOrigin? base negative = some (.core layer i j)) :
    ∃ family, Family.all[i]? = some family ∧ layer = family.layer := by
  obtain ⟨family, i', hfamily, hfound, -⟩ := exists_first_of_findSome? h
  dsimp only at hfound
  split at hfound
  · obtain ⟨j', -, heq⟩ := Option.map_eq_some_iff.mp hfound
    obtain ⟨rfl, rfl, -⟩ := Origin.core.inj heq
    exact ⟨family, hfamily, rfl⟩
  · exact absurd hfound (by simp)

/-- **Where fewer rules match, a first match that is still one is still the first.** -/
theorem coreOrigin?_of_fewer {base' : Text} {negative' : Bool} {layer : Layer} {i j : Nat}
    (hfewer : ∀ i j, v'.CoreMatches base' negative' i j → v.CoreMatches base negative i j)
    (h : v.coreOrigin? base negative = some (.core layer i j))
    (hstill : v'.CoreMatches base' negative' i j) :
    v'.coreOrigin? base' negative' = some (.core layer i j) := by
  obtain ⟨layer₁, i₁, j₁, heq, -, hfirst⟩ := first_of_coreOrigin? h
  obtain ⟨rfl, rfl, rfl⟩ := Origin.core.inj heq
  obtain ⟨o', ho'⟩ := coreOrigin?_of_matches hstill
  obtain ⟨layer', i', j', rfl, hmatch', hfirst'⟩ := first_of_coreOrigin? ho'
  -- each of the two places is no later than the other
  have hle := hfirst' i j hstill
  have hge := hfirst i' j' (hfewer i' j' hmatch')
  obtain ⟨rfl, rfl⟩ : i = i' ∧ j = j' := by omega
  obtain ⟨family, hfamily, rfl⟩ := layer_of_coreOrigin? h
  obtain ⟨family', hfamily', rfl⟩ := layer_of_coreOrigin? ho'
  obtain rfl := Option.some.inj (hfamily.symm.trans hfamily')
  exact ho'

theorem stage_of_coreOrigin? {o : Origin} (h : v.coreOrigin? base negative = some o) :
    o.stage = 0 := by
  obtain ⟨layer, i, j, rfl, -⟩ := first_of_coreOrigin? h
  rfl

/-! ## Plugins and properties -/

theorem stage_of_pluginOrigin? {o : Origin} (h : v.pluginOrigin? base = some o) : o.stage = 1 := by
  obtain ⟨p, i, -, hfound, -⟩ := exists_first_of_findSome? h
  obtain ⟨j, -, rfl⟩ := Option.map_eq_some_iff.mp hfound
  rfl

/-- What a base that no built-in rule recognizes is looked for in. -/
def lateOrigin? (v : Vocabulary) (base : Text) (negative : Bool) : Option Origin :=
  if negative then none
  else (v.pluginOrigin? base).or (if isProperty base then some .property else none)

theorem origin?_eq (v : Vocabulary) (base : Text) (negative : Bool) :
    v.origin? base negative = (v.coreOrigin? base negative).or (v.lateOrigin? base negative) := rfl

theorem stage_of_lateOrigin? {o : Origin} (h : v.lateOrigin? base negative = some o) :
    0 < o.stage := by
  unfold lateOrigin? at h
  split at h
  · exact absurd h (by simp)
  · rcases Option.or_eq_some_iff.mp h with hplugin | ⟨-, hproperty⟩
    · rw [stage_of_pluginOrigin? hplugin]
      exact Nat.one_pos
    · split at hproperty
      · obtain rfl := Option.some.inj hproperty
        exact Nat.two_pos
      · exact absurd hproperty (by simp)

/-- **The whole search finds no later what more built-in rules match**, if plugins and
properties are the same. -/
theorem origin?_noLater {o : Origin}
    (hmore : ∀ i j, v.CoreMatches base negative i j → v'.CoreMatches base negative i j)
    (hlate : v'.lateOrigin? base negative = v.lateOrigin? base negative)
    (h : v.origin? base negative = some o) :
    ∃ o', v'.origin? base negative = some o' ∧ o'.NoLater o := by
  rw [origin?_eq] at h
  rw [origin?_eq, hlate]
  rcases Option.or_eq_some_iff.mp h with hcore | ⟨-, hrest⟩
  · obtain ⟨o', ho', hle⟩ := coreOrigin?_noLater hmore hcore
    exact ⟨o', by rw [ho']; rfl, hle⟩
  · cases hcore' : v'.coreOrigin? base negative with
    | none => exact ⟨o, by rw [hrest]; rfl, .refl o⟩
    | some o' =>
        -- a built-in rule has taken over
        have hstage := stage_of_coreOrigin? hcore'
        have hstage' := stage_of_lateOrigin? hrest
        exact ⟨o', rfl, .inl (by omega)⟩

/-! ## Classes -/

/-- A class with these variants is recognized at this place. -/
def Recognizes (v : Vocabulary) (name : Text) (variants : VariantOrder) (o : Origin) : Prop :=
  ∃ c, Candidate.parse? v.separator v.classPrefix name = some c ∧
    v.variantOrder? c.variants = some variants ∧ v.origin? c.base c.negative = some o

/-- **The rank of a class is the key of the place where it is recognized.** -/
theorem rank_eq_some_iff {name : Text} {k : SortKey} :
    v.rank name = some k ↔ ∃ variants o, v.Recognizes name variants o ∧ k = key variants o := by
  unfold rank
  simp only [Option.bind_eq_bind, Option.bind_eq_some_iff, Option.pure_def, Option.some.injEq]
  constructor
  · rintro ⟨c, hc, variants, hvariants, o, ho, rfl⟩
    exact ⟨variants, o, ⟨c, hc, hvariants, ho⟩, rfl⟩
  · rintro ⟨variants, o, ⟨c, hc, hvariants, ho⟩, rfl⟩
    exact ⟨c, hc, variants, hvariants, o, ho, rfl⟩

theorem Recognizes.rank_eq {name : Text} {variants : VariantOrder} {o : Origin}
    (h : v.Recognizes name variants o) : v.rank name = some (key variants o) :=
  rank_eq_some_iff.mpr ⟨variants, o, h, rfl⟩

end Vocabulary

end ClassSort
