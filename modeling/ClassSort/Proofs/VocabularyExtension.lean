import ClassSort.Proofs.SearchOrder
import ClassSort.Proofs.VariantBits

/-!
# Adding to a configuration

Two ways to add to a configuration, and what they leave alone.

**A plugin** goes behind the others. It is looked at after them, so whatever they or the
built-in families recognize stays where it is. Its variants go behind all others too, which
moves the bit of the variants in brackets but changes no comparison. Sort keys may change,
the order of classes does not.

**An extension of the theme** adds keys to scales and names to the colors. Every kind of
value accepts at least what it accepted, because each of them asks only whether something
is *in* a scale, and so every rule recognizes at least what it did. A base may then be
found earlier in the search, but never later, and never not at all.
-/

namespace ClassSort

namespace Vocabulary

/-! ## A plugin more -/

variable {v v' : Vocabulary}

theorem pluginOrigin?_of_longer {more : List Plugin} (h : v'.plugins = v.plugins ++ more)
    {base : Text} {o : Origin} (ho : v.pluginOrigin? base = some o) :
    v'.pluginOrigin? base = some o := by
  unfold pluginOrigin? at ho ⊢
  rw [h, List.zipIdx_append, List.findSome?_append, ho]
  rfl

theorem coreOrigin?_congr (htheme : v'.theme = v.theme) (hcore : v'.corePlugins = v.corePlugins)
    (base : Text) (negative : Bool) :
    v'.coreOrigin? base negative = v.coreOrigin? base negative := by
  unfold coreOrigin?
  rw [htheme, hcore]

theorem lateOrigin?_of_longer {more : List Plugin} (h : v'.plugins = v.plugins ++ more)
    {base : Text} {negative : Bool} {o : Origin} (ho : v.lateOrigin? base negative = some o)
    (hne : o ≠ .property) : v'.lateOrigin? base negative = some o := by
  unfold lateOrigin? at ho ⊢
  split at ho
  · exact absurd ho (by simp)
  · rename_i hpositive
    rw [if_neg hpositive]
    rcases Option.or_eq_some_iff.mp ho with hplugin | ⟨-, hproperty⟩
    · rw [pluginOrigin?_of_longer h hplugin]
      rfl
    · split at hproperty
      · exact absurd (Option.some.inj hproperty).symm hne
      · exact absurd hproperty (by simp)

/-- **What is not a written-out property stays where it is recognized.** A property may be
taken by the plugins that were added, all else is found before they are asked. -/
theorem origin?_of_longer {more : List Plugin} (htheme : v'.theme = v.theme)
    (hcore : v'.corePlugins = v.corePlugins) (h : v'.plugins = v.plugins ++ more) {base : Text}
    {negative : Bool} {o : Origin} (ho : v.origin? base negative = some o) (hne : o ≠ .property) :
    v'.origin? base negative = some o := by
  rw [origin?_eq] at ho ⊢
  rw [coreOrigin?_congr htheme hcore]
  rcases Option.or_eq_some_iff.mp ho with hfound | ⟨hmiss, hlate⟩
  · rw [hfound]
    rfl
  · rw [hmiss, lateOrigin?_of_longer h hlate hne]
    rfl

/-- The bits of some variants, before and after. -/
theorem mapM_bit?_of_longer {t t' : VariantTable} {rest : List String}
    (h : t'.names = t.names ++ rest)
    (hrest : ∀ name ∈ rest, VariantTable.isArbitrary name.toList = false) {variants : List Text}
    {bits : List Nat} (hbits : variants.mapM t.bit? = some bits) :
    (∀ bit ∈ bits, bit ≤ t.arbitraryBit) ∧
      variants.mapM t'.bit? = some (bits.map (VariantTable.moved t t')) := by
  induction variants generalizing bits with
  | nil =>
      rw [List.mapM_nil] at hbits ⊢
      obtain rfl := Option.some.inj hbits
      exact ⟨by simp, rfl⟩
  | cons variant variants ih =>
      simp only [List.mapM_cons, Option.bind_eq_bind, Option.bind_eq_some_iff, Option.pure_def,
        Option.some.injEq] at hbits
      obtain ⟨bit, hbit, bits', hbits', rfl⟩ := hbits
      obtain ⟨hle, hmoved⟩ := ih hbits'
      refine ⟨?_, ?_⟩
      · intro b hb
        rcases List.mem_cons.mp hb with rfl | hb
        · exact VariantTable.bit?_le hbit
        · exact hle b hb
      · simp only [List.mapM_cons, VariantTable.bit?_of_longer h hrest hbit, hmoved,
          Option.bind_eq_bind, Option.bind_some, Option.pure_def, List.map_cons]

/-- Keys with the same places compare as their variants do. -/
theorem compare_key_congr {a b a' b' : VariantOrder} (h : compare a' b' = compare a b)
    (o o' : Origin) : compare (key a' o) (key b' o') = compare (key a o) (key b o') := by
  have hkey : ∀ o : Origin, ∃ layer family rule,
      ∀ variants, key variants o = ⟨variants, layer, family, rule⟩ := by
    intro o
    cases o <;> exact ⟨_, _, _, fun _ => rfl⟩
  obtain ⟨layer, family, rule, ho⟩ := hkey o
  obtain ⟨layer', family', rule', ho'⟩ := hkey o'
  rw [ho, ho, ho', ho']
  show (compare a' b').then _ = (compare a b).then _
  rw [h]
  rfl

/-- Variants that are known stay known, with their bits moved. -/
theorem variantOrder?_of_longer {rest : List String}
    (h : v'.variants.names = v.variants.names ++ rest)
    (hrest : ∀ name ∈ rest, VariantTable.isArbitrary name.toList = false) {variants : List Text}
    {order : VariantOrder} (horder : v.variantOrder? variants = some order) :
    ∃ bits, (∀ bit ∈ bits, bit ≤ v.variants.arbitraryBit) ∧ order = .ofBits bits ∧
      v'.variantOrder? variants =
        some (.ofBits (bits.map (VariantTable.moved v.variants v'.variants))) := by
  unfold variantOrder? at horder ⊢
  obtain ⟨bits, hbits, rfl⟩ := Option.map_eq_some_iff.mp horder
  obtain ⟨hle, hmoved⟩ := mapM_bit?_of_longer h hrest hbits
  refine ⟨bits, hle, rfl, ?_⟩
  rw [hmoved]
  rfl

end Vocabulary

/-- A configuration with one plugin more, behind the others. -/
def Config.addPlugin (c : Config) (p : Plugin) : Config := { c with plugins := c.plugins ++ [p] }

theorem Config.pluginVariants_addPlugin (c : Config) (p : Plugin) :
    (c.addPlugin p).pluginVariants = c.pluginVariants ++ p.variants := by
  simp [Config.pluginVariants, Config.addPlugin]

namespace Vocabulary

theorem variants_addPlugin (c : Config) (p : Plugin) :
    ∃ rest, (ofConfig (c.addPlugin p)).variants.names = (ofConfig c).variants.names ++ rest ∧
      ∀ name ∈ rest, name ∈ p.variants := by
  show ∃ rest, (VariantTable.ofConfig c.theme (c.addPlugin p).pluginVariants).names = _ ∧ _
  rw [Config.pluginVariants_addPlugin]
  exact VariantTable.ofNames_append _ _ _

/-- One class: the place stays, and the bits of its variants are moved. -/
theorem recognizes_addPlugin {c : Config} {p : Plugin} {rest : List String}
    (hnames : (ofConfig (c.addPlugin p)).variants.names = (ofConfig c).variants.names ++ rest)
    (hrest : ∀ name ∈ rest, VariantTable.isArbitrary name.toList = false) {name : Text}
    {variants : VariantOrder} {o : Origin} (h : (ofConfig c).Recognizes name variants o)
    (hne : o ≠ .property) :
    ∃ bits, (∀ bit ∈ bits, bit ≤ (ofConfig c).variants.arbitraryBit) ∧ variants = .ofBits bits ∧
      (ofConfig (c.addPlugin p)).Recognizes name
        (.ofBits (bits.map (VariantTable.moved (ofConfig c).variants
          (ofConfig (c.addPlugin p)).variants))) o := by
  obtain ⟨candidate, hparse, hvariants, ho⟩ := h
  obtain ⟨bits, hle, heq, hvariants'⟩ := variantOrder?_of_longer hnames hrest hvariants
  have htheme : (ofConfig (c.addPlugin p)).theme = (ofConfig c).theme := rfl
  have hcore : (ofConfig (c.addPlugin p)).corePlugins = (ofConfig c).corePlugins := rfl
  have hplugins : (ofConfig (c.addPlugin p)).plugins = (ofConfig c).plugins ++ [p] := rfl
  exact ⟨bits, hle, heq, candidate, hparse, hvariants',
    origin?_of_longer htheme hcore hplugins ho hne⟩

/--
**A plugin more changes nothing about the order of what was known.**

Let `p` be a plugin whose variants are not written in brackets. Any two classes that a
built-in family or a plugin of `c` recognizes are still recognized in the same places when
`p` is added behind the plugins of `c`, and they compare as before.
-/
theorem plugin_keeps_order (c : Config) (p : Plugin)
    (hp : ∀ name ∈ p.variants, VariantTable.isArbitrary name.toList = false) (a b : Text)
    (va vb : VariantOrder) (oa ob : Origin) (ha : (ofConfig c).Recognizes a va oa)
    (hb : (ofConfig c).Recognizes b vb ob) (hoa : oa ≠ .property) (hob : ob ≠ .property) :
    ∃ va' vb',
      (ofConfig c).rank a = some (key va oa) ∧
      (ofConfig c).rank b = some (key vb ob) ∧
      (ofConfig (c.addPlugin p)).rank a = some (key va' oa) ∧
      (ofConfig (c.addPlugin p)).rank b = some (key vb' ob) ∧
      compare (key va' oa) (key vb' ob) = compare (key va oa) (key vb ob) := by
  obtain ⟨rest, hnames, hrest⟩ := variants_addPlugin c p
  have hplain : ∀ name ∈ rest, VariantTable.isArbitrary name.toList = false :=
    fun name hname => hp name (hrest name hname)
  obtain ⟨bits, hbits, rfl, ha'⟩ := recognizes_addPlugin hnames hplain ha hoa
  obtain ⟨bits', hbits', rfl, hb'⟩ := recognizes_addPlugin hnames hplain hb hob
  refine ⟨_, _, ha.rank_eq, hb.rank_eq, ha'.rank_eq, hb'.rank_eq, ?_⟩
  -- only the bits have moved, and the map that moves them keeps their order
  refine compare_key_congr ?_ _ _
  exact VariantOrder.compare_ofBits_map (VariantTable.rises_moved hnames) hbits hbits'

/-- A configuration with one screen, one built-in family, a spacing and a plugin. -/
def smallConfig : Config where
  corePlugins := .allow ["padding"]
  theme :=
    { extend := [("spacing", .object [("18", .null)])],
      scales := [("screens", .object [("sm", .string "640px")])] }
  plugins := [{ name := "forms", classes := ["btn", "p-huge"], variants := ["hocus"] }]

theorem variants_smallConfig :
    (ofConfig smallConfig).variants = VariantTable.ofNames ["sm"] ["hocus"] := by
  have hscreens : Screen.ofConfig smallConfig.theme = [⟨"sm", Screen.widthOf (.string "640px")⟩] :=
    List.mergeSort_singleton _
  show VariantTable.ofNames ((Screen.ofConfig smallConfig.theme).map (·.name)) _ = _
  rw [hscreens]
  rfl

theorem recognizes_smallConfig {name : Text} {c : Candidate} {bits : List Nat} {o : Origin}
    (hparse : Candidate.parse? [':'] [] name = some c)
    (hbits : c.variants.mapM (VariantTable.ofNames ["sm"] ["hocus"]).bit? = some bits)
    (ho : (ofConfig smallConfig).origin? c.base c.negative = some o) :
    (ofConfig smallConfig).Recognizes name (.ofBits bits) o := by
  refine ⟨c, hparse, ?_, ho⟩
  unfold variantOrder?
  rw [variants_smallConfig, hbits]
  rfl

/-- A variant in brackets had bit 114, the bit that `peek` gets. -/
theorem plugin_keeps_order_brackets :
    ∃ va vb,
      (ofConfig (smallConfig.addPlugin { variants := ["peek"] })).rank "[&>*]:btn".toList =
        some (key va (.plugin .utilities 0 0)) ∧
      (ofConfig (smallConfig.addPlugin { variants := ["peek"] })).rank "hover:p-4".toList =
        some (key vb (.core .utilities 105 0)) ∧
      compare (key va (.plugin .utilities 0 0)) (key vb (.core .utilities 105 0)) =
        compare (key (.ofBits [114]) (.plugin .utilities 0 0))
          (key (.ofBits [34]) (.core .utilities 105 0)) := by
  obtain ⟨va, vb, -, -, ha, hb, h⟩ := plugin_keeps_order smallConfig { variants := ["peek"] }
    (by decide) "[&>*]:btn".toList "hover:p-4".toList (.ofBits [114]) (.ofBits [34])
    (.plugin .utilities 0 0) (.core .utilities 105 0)
    (recognizes_smallConfig (c := ⟨["[&>*]".toList], "btn".toList, false, false⟩)
      (by decide +kernel) (by decide +kernel) (by decide +kernel))
    (recognizes_smallConfig (c := ⟨["hover".toList], "p-4".toList, false, false⟩)
      (by decide +kernel) (by decide +kernel) (by decide +kernel))
    (by decide) (by decide)
  exact ⟨va, vb, ha, hb, h⟩

end Vocabulary

/-! ## An extension of the theme -/

namespace Theme

/-- The names that the additions of a configuration give to a scale. -/
def added (names : Json → List String) (scale : String) (extend : List (String × Json)) :
    List String := ((Json.field? scale extend).map names).getD []

/-- New additions that give every scale, and the colors, at least the names that the old ones
gave, and leave the screens alone. -/
structure Extends (old new : List (String × Json)) : Prop where
  scales : ∀ s : Scale, added scaleKeys s.name old ⊆ added scaleKeys s.name new
  colors : added colorNames colorScale old ⊆ added colorNames colorScale new
  screens : Json.field? Screen.scale new = Json.field? Screen.scale old

/-- Every key and every color of `t` is one of `t'`. -/
structure Within (t t' : Theme) : Prop where
  keys : ∀ s, t.keys s ⊆ t'.keys s
  colors : t.colors ⊆ t'.colors

variable {names : Json → List String} {scale : String} {config : ThemeConfig}
  {extend : List (String × Json)}

/-- A scale keeps its names if what it is built on and what is added keep theirs. -/
theorem resolve_subset {builtin builtin' : List String} (hbuiltin : builtin ⊆ builtin')
    (hadded : added names scale config.extend ⊆ added names scale extend) :
    resolve names scale builtin config ⊆
      resolve names scale builtin' { config with extend := extend } := by
  refine List.append_subset.mpr ⟨?_, ?_⟩
  · refine List.Subset.trans ?_ (List.subset_append_left _ _)
    cases Json.field? scale config.scales with
    | none => exact hbuiltin
    | some replacement => exact List.Subset.refl _
  · exact List.Subset.trans hadded (List.subset_append_right _ _)

/-- **The theme of a configuration grows with its additions.** Spacing comes first: the scales
that measure distances are built on it. -/
theorem within_ofConfig (h : Extends config.extend extend) :
    (ofConfig config).Within (ofConfig { config with extend := extend }) := by
  have hspacing : spacing config ⊆ spacing { config with extend := extend } :=
    resolve_subset (List.Subset.refl _) (h.scales .spacing)
  constructor
  · intro s
    refine resolve_subset ?_ (h.scales s)
    refine List.append_subset.mpr ⟨?_, List.subset_append_right _ _⟩
    refine List.Subset.trans ?_ (List.subset_append_left _ _)
    split
    · exact hspacing
    · exact List.Subset.refl _
  · exact resolve_subset (List.Subset.refl _) h.colors

variable {t t' : Theme}

theorem Within.contains (h : t.Within t') {s : Scale} {value : String}
    (hvalue : t.contains s value = true) : t'.contains s value = true :=
  List.contains_iff_mem.mpr (h.keys s (List.contains_iff_mem.mp hvalue))

theorem Within.hasColor (h : t.Within t') {name : String} (hname : t.hasColor name = true) :
    t'.hasColor name = true :=
  List.contains_iff_mem.mpr (h.colors (List.contains_iff_mem.mp hname))

/-- **No kind of value loses anything.** -/
theorem Within.accepts (h : t.Within t') {value : Text} {values : Values}
    (hvalue : values.accepts t value = true) : values.accepts t' value = true := by
  cases values with
  | scale s =>
      rcases Bool.or_eq_true_iff.mp hvalue with hkey | hbrackets
      · exact Bool.or_eq_true_iff.mpr (.inl (h.contains hkey))
      · exact Bool.or_eq_true_iff.mpr (.inr hbrackets)
  | colors extra =>
      rcases Bool.or_eq_true_iff.mp hvalue with hextra | hcolor
      · exact Bool.or_eq_true_iff.mpr (.inl hextra)
      · refine Bool.or_eq_true_iff.mpr (.inr ?_)
        -- the opacity is taken off without a look at the theme
        rcases Bool.or_eq_true_iff.mp hcolor with hname | hbrackets
        · exact Bool.or_eq_true_iff.mpr (.inl (h.hasColor hname))
        · exact Bool.or_eq_true_iff.mpr (.inr hbrackets)
  | listed words => exact hvalue
  | keywords words => exact hvalue

theorem Within.recognizes (h : t.Within t') {base : Text} {negative : Bool} {rule : Rule}
    (hrule : rule.recognizes t base negative = true) :
    rule.recognizes t' base negative = true := by
  cases rule with
  | names all => exact hrule
  | valued root values negatable =>
      unfold Rule.recognizes at hrule ⊢
      obtain ⟨hsign, hvalue⟩ := Bool.and_eq_true_iff.mp hrule
      refine Bool.and_eq_true_iff.mpr ⟨hsign, ?_⟩
      by_cases hroot : base = root.toList
      · rw [if_pos hroot] at hvalue ⊢
        exact h.accepts hvalue
      · rw [if_neg hroot] at hvalue ⊢
        cases hfound : Rule.value? root.toList base with
        | none =>
            rw [hfound] at hvalue
            exact absurd hvalue (by simp)
        | some value =>
            rw [hfound] at hvalue
            exact h.accepts hvalue

end Theme

/-- A configuration with other additions to its theme. -/
def Config.withExtend (c : Config) (extend : List (String × Json)) : Config :=
  { c with theme := { c.theme with extend := extend } }

namespace Vocabulary

theorem variants_withExtend {c : Config} {extend : List (String × Json)}
    (h : Theme.Extends c.theme.extend extend) :
    (ofConfig (c.withExtend extend)).variants = (ofConfig c).variants := by
  have hscreens : Screen.ofConfig (c.withExtend extend).theme = Screen.ofConfig c.theme := by
    unfold Screen.ofConfig
    show List.mergeSort (List.foldl _ _ (((Json.field? Screen.scale extend).map _).getD [])) _ = _
    rw [h.screens]
    rfl
  show VariantTable.ofConfig (c.withExtend extend).theme c.pluginVariants = _
  unfold VariantTable.ofConfig
  rw [hscreens]
  rfl

/--
**A larger theme loses no utility.**

Let the additions to the theme of `c` be replaced by others that give at least the same names.
Every class that was recognized still is, with the same variants, and in the search through
built-in families, plugins and properties it is found in the same place or an earlier one.
-/
theorem theme_extension_keeps_utilities (c : Config) (extend : List (String × Json))
    (hextend : Theme.Extends c.theme.extend extend) (name : Text) (variants : VariantOrder)
    (o : Origin) (h : (ofConfig c).Recognizes name variants o) :
    ∃ o', (ofConfig (c.withExtend extend)).Recognizes name variants o' ∧ o'.NoLater o ∧
      (ofConfig c).rank name = some (key variants o) ∧
      (ofConfig (c.withExtend extend)).rank name = some (key variants o') := by
  have hrank := h.rank_eq
  obtain ⟨candidate, hparse, hvariants, ho⟩ := h
  have htheme : (ofConfig c).theme.Within (ofConfig (c.withExtend extend)).theme :=
    Theme.within_ofConfig hextend
  have hmore : ∀ i j, (ofConfig c).CoreMatches candidate.base candidate.negative i j →
      (ofConfig (c.withExtend extend)).CoreMatches candidate.base candidate.negative i j := by
    rintro i j ⟨family, rule, hfamily, hon, hrule, hrec⟩
    exact ⟨family, rule, hfamily, hon, hrule, htheme.recognizes hrec⟩
  have hlate : (ofConfig (c.withExtend extend)).lateOrigin? candidate.base candidate.negative =
      (ofConfig c).lateOrigin? candidate.base candidate.negative := rfl
  obtain ⟨o', ho', hle⟩ := origin?_noLater hmore hlate ho
  have h' : (ofConfig (c.withExtend extend)).Recognizes name variants o' := by
    refine ⟨candidate, hparse, ?_, ho'⟩
    unfold variantOrder? at hvariants ⊢
    rw [variants_withExtend hextend]
    exact hvariants
  exact ⟨o', h', hle, hrank, h'.rank_eq⟩

/-- More than `smallConfig` adds to its theme. -/
def hugePadding : List (String × Json) :=
  [("padding", .object [("huge", .null)]), ("spacing", .object [("18", .null), ("22", .null)])]

theorem extends_hugePadding : Theme.Extends smallConfig.theme.extend hugePadding where
  scales := by
    intro s
    cases s <;> decide +kernel
  colors := by decide +kernel
  screens := rfl

/-- The padding `huge` comes before the plugin that had a class `p-huge`. -/
theorem theme_extension_keeps_utilities_taken_over :
    (ofConfig (smallConfig.withExtend hugePadding)).origin? "p-huge".toList false =
        some (.core .utilities 105 0) ∧
      ∃ o, (ofConfig (smallConfig.withExtend hugePadding)).Recognizes
        "hover:p-huge".toList (.ofBits [34]) o ∧ o.NoLater (.plugin .utilities 0 0) := by
  obtain ⟨o, h, hle, -, -⟩ := theme_extension_keeps_utilities smallConfig hugePadding
    extends_hugePadding "hover:p-huge".toList (.ofBits [34]) (.plugin .utilities 0 0)
    (recognizes_smallConfig (c := ⟨["hover".toList], "p-huge".toList, false, false⟩)
      (by decide +kernel) (by decide +kernel) (by decide +kernel))
  exact ⟨by decide +kernel, o, h, hle⟩

end Vocabulary

end ClassSort
