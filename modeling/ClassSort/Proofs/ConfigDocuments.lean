import Mathlib.Data.List.Forall2
import ClassSort.Config.Format
import ClassSort.Proofs.PlainDocuments

/-!
# Configurations and their documents

A configuration is written as a document (`toJson`) and read from one (`ofJson?`). What is kept in
memory is in order: the tables of the theme are plain and the switches of the families ascend. That
is `Config.Plain`, and it holds of whatever is read.

* **Nothing is lost**: a plain configuration is read back from its document, whatever its theme
  holds, if no scale has the name that the theme uses for the table of extensions
  (`ofJson?_toJson`).
* **The order of a document does not matter**: a configuration is read from the plain form of a
  document too (`ofJson?_normalize`), so it is also read back from its document in plain form.

Each reader of a record is opened once, by a lemma that says on which fields it succeeds.
-/

namespace ClassSort.Config

theorem mapM_eq_some_iff {α β : Type} {f : α → Option β} {as : List α} {bs : List β} :
    as.mapM f = some bs ↔ List.Forall₂ (fun a b => f a = some b) as bs := by
  induction as generalizing bs with
  | nil => simp [eq_comm]
  | cons a as ih =>
      simp only [List.mapM_cons, Option.bind_eq_bind, Option.bind_eq_some_iff, Option.pure_def,
        Option.some.injEq, List.forall₂_cons_left_iff, ih]
      constructor
      · rintro ⟨b, hb, bs, hbs, rfl⟩
        exact ⟨b, bs, hb, hbs, rfl⟩
      · rintro ⟨b, bs, hb, hbs, rfl⟩
        exact ⟨b, hb, bs, hbs, rfl⟩

/-! ## What a record is read from -/

/-- A field is given what the entries with one of its spellings hold, which is one value at most. -/
theorem given?_eq_some {fields : List (String × Json)} {spellings : List String}
    {g : Option Json} :
    given? fields spellings = some g ↔
      (fields.filter fun f => spellings.contains f.1).map Prod.snd = g.toList := by
  unfold given?
  generalize (fields.filter fun f => spellings.contains f.1) = chosen
  rcases chosen with _ | ⟨f, _ | ⟨f', chosen⟩⟩ <;> cases g <;> simp

theorem length_of_recordFields? {names : List (List String)} {j : Json}
    {given : List (Option Json)} (h : recordFields? names j = some given) :
    given.length = names.length := by
  cases j with
  | object fields => exact (mapM_eq_some_iff.mp h).length_eq.symm
  | array items =>
      rw [recordFields?] at h
      split at h
      · cases h
        simp
        omega
      · exact absurd h (by simp)
  | _ => exact absurd h (by simp [recordFields?])

theorem list?_eq_some {α : Type} {decode : Json → Option α} {j : Json} {as : List α} :
    list? decode j = some as ↔
      ∃ items, j = .array items ∧ List.Forall₂ (fun i a => decode i = some a) items as := by
  cases j with
  | array items => simp [list?, mapM_eq_some_iff]
  | _ => simp [list?]

theorem utility?_eq_some {j : Json} {u : ValueUtility} :
    utility? j = some u ↔
      ∃ root values, recordFields? [["root"], ["values"]] j = some [some root, values] ∧
        root.string? = some u.root ∧ orElse [] (list? Json.string?) values = some u.values := by
  unfold utility?
  constructor
  · intro h
    obtain ⟨given, hgiven, h⟩ := Option.bind_eq_some_iff.mp h
    split at h
    · obtain ⟨root, hroot, h⟩ := Option.bind_eq_some_iff.mp h
      obtain ⟨values, hvalues, h⟩ := Option.bind_eq_some_iff.mp h
      cases h
      exact ⟨_, _, hgiven, hroot, hvalues⟩
    · exact absurd h (by simp)
  · rintro ⟨_, _, hgiven, hroot, hvalues⟩
    simp [hgiven, hroot, hvalues]

theorem plugin?_eq_some {j : Json} {p : Plugin} :
    plugin? j = some p ↔
      ∃ name layer classes utilities variants,
        recordFields? [["name"], ["layer"], ["classes"], ["utilities"], ["variants"]] j =
          some [name, layer, classes, utilities, variants] ∧
        orElse "" Json.string? name = some p.name ∧
        orElse .utilities layer? layer = some p.layer ∧
        orElse [] (list? Json.string?) classes = some p.classes ∧
        orElse [] (list? utility?) utilities = some p.utilities ∧
        orElse [] (list? Json.string?) variants = some p.variants := by
  unfold plugin?
  constructor
  · intro h
    obtain ⟨given, hgiven, h⟩ := Option.bind_eq_some_iff.mp h
    split at h
    · obtain ⟨name, hname, h⟩ := Option.bind_eq_some_iff.mp h
      obtain ⟨layer, hlayer, h⟩ := Option.bind_eq_some_iff.mp h
      obtain ⟨classes, hclasses, h⟩ := Option.bind_eq_some_iff.mp h
      obtain ⟨utilities, hutilities, h⟩ := Option.bind_eq_some_iff.mp h
      obtain ⟨variants, hvariants, h⟩ := Option.bind_eq_some_iff.mp h
      cases h
      exact ⟨_, _, _, _, _, hgiven, hname, hlayer, hclasses, hutilities, hvariants⟩
    · exact absurd h (by simp)
  · rintro ⟨_, _, _, _, _, hgiven, hname, hlayer, hclasses, hutilities, hvariants⟩
    simp [hgiven, hname, hlayer, hclasses, hutilities, hvariants]

/-- A theme is read from the table of its extensions, if it has one, and from its other fields. -/
theorem theme?_eq_some {j : Json} {t : ThemeConfig} :
    theme? j = some t ↔
      ∃ fields extend given, j = .object fields ∧ recordFields? [["extend"]] j = some [given] ∧
        orElse (.object []) some given = some (.object extend) ∧
        (Json.object extend).normalize = some (.object t.extend) ∧
        (Json.object (fields.filter (·.1 != "extend"))).normalize = some (.object t.scales) := by
  constructor
  · intro h
    cases j with
    | object fields =>
        unfold theme? at h
        obtain ⟨given, hgiven, h⟩ := Option.bind_eq_some_iff.mp h
        obtain ⟨extend, hextend, h⟩ := Option.bind_eq_some_iff.mp h
        obtain ⟨all, hall, hhead⟩ := Option.bind_eq_some_iff.mp hgiven
        have hone : all = [given] := by
          obtain ⟨x, rfl⟩ := List.length_eq_one_iff.mp (length_of_recordFields? hall)
          rw [Option.some.inj hhead]
        rw [hone] at hall
        split at h
        · obtain ⟨v, hv, h⟩ := Option.bind_eq_some_iff.mp h
          split at h
          · obtain ⟨w, hw, h⟩ := Option.bind_eq_some_iff.mp h
            split at h
            · cases h
              exact ⟨fields, _, given, rfl, hall, hextend, hv, hw⟩
            · exact absurd h (by simp)
          · exact absurd h (by simp)
        · exact absurd h (by simp)
    | _ => exact absurd h (by simp [theme?])
  · rintro ⟨fields, extend, given, rfl, hgiven, hextend, hv, hw⟩
    simp [theme?, hgiven, hextend, hv, hw]

theorem ofJson?_eq_some {j : Json} {c : Config} :
    ofJson? j = some c ↔
      ∃ classPrefix separator corePlugins theme plugins,
        recordFields? fieldNames j = some [classPrefix, separator, corePlugins, theme, plugins] ∧
        orElse "" Json.string? classPrefix = some c.classPrefix ∧
        orElse none optionalString? separator = some c.separator ∧
        orElse (.toggles []) corePlugins? corePlugins = some c.corePlugins ∧
        orElse {} theme? theme = some c.theme ∧
        orElse [] (list? plugin?) plugins = some c.plugins := by
  unfold ofJson?
  constructor
  · intro h
    obtain ⟨given, hgiven, h⟩ := Option.bind_eq_some_iff.mp h
    split at h
    · obtain ⟨classPrefix, hclassPrefix, h⟩ := Option.bind_eq_some_iff.mp h
      obtain ⟨separator, hseparator, h⟩ := Option.bind_eq_some_iff.mp h
      obtain ⟨corePlugins, hcorePlugins, h⟩ := Option.bind_eq_some_iff.mp h
      obtain ⟨theme, htheme, h⟩ := Option.bind_eq_some_iff.mp h
      obtain ⟨plugins, hplugins, h⟩ := Option.bind_eq_some_iff.mp h
      cases h
      exact ⟨_, _, _, _, _, hgiven, hclassPrefix, hseparator, hcorePlugins, htheme, hplugins⟩
    · exact absurd h (by simp)
  · rintro ⟨_, _, _, _, _, hgiven, hclassPrefix, hseparator, hcorePlugins, htheme, hplugins⟩
    simp [hgiven, hclassPrefix, hseparator, hcorePlugins, htheme, hplugins]

/-- The entries of a table of flags. -/
def flagFields (flags : List (String × Bool)) : List (String × Json) :=
  flags.map fun f => (f.1, .bool f.2)

theorem mapM_flag {fields : List (String × Json)} {flags : List (String × Bool)} :
    (fields.mapM fun f => (bool? f.2).map (f.1, ·)) = some flags ↔ fields = flagFields flags := by
  rw [mapM_eq_some_iff]
  constructor
  · intro h
    induction h with
    | nil => rfl
    | @cons f flag _ _ hflag _ ih =>
        obtain ⟨b, hb, rfl⟩ := Option.map_eq_some_iff.mp hflag
        obtain ⟨k, v⟩ := f
        cases v with
        | bool b' =>
            cases hb
            rw [ih]
            rfl
        | _ => exact absurd hb (by simp [bool?])
  · rintro rfl
    induction flags with
    | nil => exact .nil
    | cons flag flags ih => exact .cons rfl ih

theorem mapM_string {items : List Json} {names : List String} :
    items.mapM Json.string? = some names ↔ items = names.map .string := by
  rw [mapM_eq_some_iff]
  constructor
  · intro h
    induction h with
    | nil => rfl
    | @cons j name _ _ hname _ ih =>
        cases j with
        | string s =>
            cases hname
            rw [ih]
            rfl
        | _ => exact absurd hname (by simp [Json.string?])
  · rintro rfl
    induction names with
    | nil => exact .nil
    | cons name names ih => exact .cons rfl ih

/-- The families are chosen by a table of flags or by a list of names. -/
theorem corePlugins?_eq_some {j : Json} {c : CorePlugins} :
    corePlugins? j = some c ↔
      (∃ flags, j = .object (flagFields flags) ∧ c = .toggles (Json.sortFields flags)) ∨
      ∃ names, j = strings names ∧ c = .allow names := by
  cases j with
  | object fields =>
      constructor
      · intro h
        obtain ⟨flags, hflags, h⟩ := Option.bind_eq_some_iff.mp h
        exact .inl ⟨flags, congrArg Json.object (mapM_flag.mp hflags), (Option.some.inj h).symm⟩
      · rintro (⟨flags, hj, rfl⟩ | ⟨names, hj, -⟩)
        · have hflags := mapM_flag.mpr (Json.object.inj hj)
          exact Option.bind_eq_some_iff.mpr ⟨flags, hflags, rfl⟩
        · exact absurd hj (by simp [strings])
  | array items => simp [corePlugins?, mapM_string, strings, eq_comm]
  | _ => simp [corePlugins?, strings]

/-! ## The order of a document does not matter -/

/-- What a field is given in a document, and in its plain form. -/
def SameField : Option Json → Option Json → Prop := Option.Rel fun j v => j.normalize = some v

theorem given?_normalize {fields vs : List (String × Json)}
    (hvs : Json.normalizeFields fields = some vs) {spellings : List String} {g : Option Json}
    (h : given? fields spellings = some g) :
    ∃ g', given? (Json.sortFields vs) spellings = some g' ∧ SameField g g' := by
  have hchosen := Json.normalizeFields_filter spellings.contains hvs
  simp only [given?_eq_some, Json.filter_sortFields spellings.contains] at h ⊢
  generalize (vs.filter fun f => spellings.contains f.1) = chosen' at hchosen ⊢
  cases g with
  | none =>
      rw [List.map_eq_nil_iff.mp h] at hchosen
      cases hchosen
      exact ⟨none, rfl, .none⟩
  | some j =>
      obtain ⟨f, hf, rfl⟩ := List.map_eq_singleton_iff.mp h
      rw [hf] at hchosen
      obtain ⟨v, rest, hv, hrest, rfl⟩ := Json.normalizeFields_cons.mp hchosen
      cases hrest
      exact ⟨some v, rfl, .some hv⟩

theorem normalizeList_eq_some {items vs : List Json} :
    Json.normalizeList items = some vs ↔
      List.Forall₂ (fun j v => j.normalize = some v) items vs := by
  induction items generalizing vs with
  | nil => simp [Json.normalizeList, eq_comm]
  | cons j items ih =>
      rw [Json.normalizeList_cons, List.forall₂_cons_left_iff]
      simp only [ih]

/-- **A record has the same fields in the plain form of a document.** -/
theorem recordFields?_normalize {names : List (List String)} {j v : Json}
    (hv : j.normalize = some v) {given : List (Option Json)}
    (h : recordFields? names j = some given) :
    ∃ given', recordFields? names v = some given' ∧ List.Forall₂ SameField given given' := by
  cases j with
  | object fields =>
      obtain ⟨vs, hvs, rfl⟩ := Option.map_eq_some_iff.mp hv
      have hall := mapM_eq_some_iff.mp h
      clear h
      suffices ∃ given', List.Forall₂ (fun s g => given? (Json.sortFields vs) s = some g)
          names given' ∧ List.Forall₂ SameField given given' by
        obtain ⟨given', hgiven', hsame⟩ := this
        exact ⟨given', mapM_eq_some_iff.mpr hgiven', hsame⟩
      induction hall with
      | nil => exact ⟨[], .nil, .nil⟩
      | cons hfirst _ ih =>
          obtain ⟨g', hg', hsame⟩ := given?_normalize hvs hfirst
          obtain ⟨given', hgiven', hrest⟩ := ih
          exact ⟨g' :: given', .cons hg' hgiven', .cons hsame hrest⟩
  | array items =>
      obtain ⟨vs, hvs, rfl⟩ := Option.map_eq_some_iff.mp hv
      have hall := normalizeList_eq_some.mp hvs
      rw [recordFields?] at h ⊢
      rw [← hall.length_eq]
      split at h
      · rename_i hle
        cases h
        refine ⟨_, if_pos hle, List.rel_append ?_ (List.forall₂_same.mpr fun g hg => ?_)⟩
        · rw [List.forall₂_map_left_iff, List.forall₂_map_right_iff]
          exact hall.imp fun _ _ hv => .some hv
        · rw [List.eq_of_mem_replicate hg]
          exact .none
      · exact absurd h (by simp)
  | _ => exact absurd h (by simp [recordFields?])

/-- A reader that takes the same from a document and from its plain form. -/
def OrderBlind {α : Type} (decode : Json → Option α) : Prop :=
  ∀ (j v : Json) (a : α), j.normalize = some v → decode j = some a → decode v = some a

section

variable {α : Type} {decode : Json → Option α}

/-- A reader of plain documents only. -/
theorem OrderBlind.of_plain (h : ∀ j a, decode j = some a → j.Plain) : OrderBlind decode := by
  intro j v a hv ha
  rw [Json.normalize_of_plain (h j a ha)] at hv
  exact Option.some.inj hv ▸ ha

theorem OrderBlind.list (h : OrderBlind decode) : OrderBlind (list? decode) := by
  intro j v as hv has
  obtain ⟨items, rfl, hall⟩ := list?_eq_some.mp has
  obtain ⟨vs, hvs, rfl⟩ := Option.map_eq_some_iff.mp hv
  refine list?_eq_some.mpr ⟨vs, rfl, ?_⟩
  have hplain := normalizeList_eq_some.mp hvs
  clear has hv hvs
  induction hall generalizing vs with
  | nil => cases hplain; exact .nil
  | cons ha _ ih =>
      cases hplain with
      | cons hfirst hrest => exact .cons (h _ _ _ hfirst ha) (ih _ hrest)

theorem OrderBlind.orElse (h : OrderBlind decode) {default a : α} {g g' : Option Json}
    (hg : SameField g g') (ha : orElse default decode g = some a) :
    orElse default decode g' = some a := by
  cases hg with
  | none => exact ha
  | some hv => exact h _ _ _ hv ha

end

theorem orderBlind_string : OrderBlind Json.string? := by
  refine .of_plain fun j a h => ?_
  cases j with
  | string s => exact .string s
  | _ => exact absurd h (by simp [Json.string?])

theorem orderBlind_optionalString : OrderBlind optionalString? := by
  refine .of_plain fun j a h => ?_
  cases j with
  | null => exact .null
  | string s => exact .string s
  | _ => exact absurd h (by simp [optionalString?])

theorem orderBlind_layer : OrderBlind layer? := by
  refine .of_plain fun j a h => ?_
  unfold layer? at h
  split at h
  · exact .string _
  · refine .object (List.pairwise_singleton _ _) fun f hf => ?_
    rw [List.mem_singleton.mp hf]
    exact .null
  · exact absurd h (by simp)

theorem orderBlind_utility : OrderBlind utility? := by
  intro j v u hv h
  obtain ⟨root, values, hgiven, hroot, hvalues⟩ := utility?_eq_some.mp h
  obtain ⟨given', hgiven', hsame⟩ := recordFields?_normalize hv hgiven
  obtain _ | ⟨⟨hroot'⟩, _ | ⟨hvalues', ⟨⟩⟩⟩ := hsame
  exact utility?_eq_some.mpr ⟨_, _, hgiven', orderBlind_string _ _ _ hroot' hroot,
    orderBlind_string.list.orElse hvalues' hvalues⟩

theorem orderBlind_plugin : OrderBlind plugin? := by
  intro j v p hv h
  obtain ⟨name, layer, classes, utilities, variants, hgiven, hname, hlayer, hclasses, hutilities,
    hvariants⟩ := plugin?_eq_some.mp h
  obtain ⟨given', hgiven', hsame⟩ := recordFields?_normalize hv hgiven
  obtain _ | ⟨hname', _ | ⟨hlayer', _ | ⟨hclasses', _ | ⟨hutilities', _ | ⟨hvariants', ⟨⟩⟩⟩⟩⟩⟩ :=
    hsame
  exact plugin?_eq_some.mpr ⟨_, _, _, _, _, hgiven',
    orderBlind_string.orElse hname' hname,
    orderBlind_layer.orElse hlayer' hlayer,
    orderBlind_string.list.orElse hclasses' hclasses,
    orderBlind_utility.list.orElse hutilities' hutilities,
    orderBlind_string.list.orElse hvariants' hvariants⟩

theorem plain_strings (names : List String) : (strings names).Plain := by
  refine .array fun j hj => ?_
  obtain ⟨name, -, rfl⟩ := List.mem_map.mp hj
  exact .string name

theorem normalizeFields_flagFields (flags : List (String × Bool)) :
    Json.normalizeFields (flagFields flags) = some (flagFields flags) := by
  refine Json.normalizeFields_of_forall fun f hf => ?_
  obtain ⟨flag, -, rfl⟩ := List.mem_map.mp hf
  rfl

theorem orderBlind_corePlugins : OrderBlind corePlugins? := by
  intro j v c hv h
  rcases corePlugins?_eq_some.mp h with ⟨flags, rfl, rfl⟩ | ⟨names, rfl, rfl⟩
  · rw [Json.normalize_object, normalizeFields_flagFields, Option.map_some] at hv
    have hsorted : Json.sortFields (flagFields flags) = flagFields (Json.sortFields flags) :=
      (Json.map_sortFields Json.bool flags).symm
    rw [← Option.some.inj hv, hsorted]
    refine corePlugins?_eq_some.mpr (.inl ⟨_, rfl, ?_⟩)
    rw [Json.sortFields_of_ascending (Json.ascending_sortFields flags)]
  · rw [Json.normalize_of_plain (plain_strings names)] at hv
    exact Option.some.inj hv ▸ h

theorem orderBlind_theme : OrderBlind theme? := by
  intro j v t hv h
  obtain ⟨fields, extend, given, rfl, hgiven, hextend, hplain, hscales⟩ := theme?_eq_some.mp h
  obtain ⟨given', hgiven', hsame⟩ := recordFields?_normalize hv hgiven
  obtain _ | @⟨_, first', _, _, hfirst, ⟨⟩⟩ := hsame
  obtain ⟨vs, hvs, rfl⟩ := Option.map_eq_some_iff.mp hv
  have hextend' : ∃ extend', orElse (.object []) some first' = some (.object extend') ∧
      (Json.object extend').normalize = some (.object t.extend) := by
    cases hfirst with
    | none => exact ⟨extend, hextend, hplain⟩
    | some hfirst =>
        rw [Option.some.inj hextend, hplain] at hfirst
        rw [← Option.some.inj hfirst]
        exact ⟨t.extend, rfl, Json.normalize_normalize hplain⟩
  obtain ⟨extend', hextend', hplain'⟩ := hextend'
  refine theme?_eq_some.mpr ⟨_, extend', first', rfl, hgiven', hextend', hplain', ?_⟩
  have hothers : (Json.sortFields vs).filter (·.1 != "extend") = t.scales := by
    have hchosen := Json.normalizeFields_filter (· != "extend") hvs
    rw [Json.normalize_object, hchosen, Option.map_some] at hscales
    rw [Json.filter_sortFields (· != "extend")]
    exact Json.object.inj (Option.some.inj hscales)
  rw [hothers]
  exact Json.normalize_normalize hscales

/-- **The plain form of a document describes the same configuration.** -/
theorem ofJson?_normalize : OrderBlind ofJson? := by
  intro j v c hv h
  obtain ⟨classPrefix, separator, corePlugins, theme, plugins, hgiven, hclassPrefix, hseparator,
    hcorePlugins, htheme, hplugins⟩ := ofJson?_eq_some.mp h
  obtain ⟨given', hgiven', hsame⟩ := recordFields?_normalize hv hgiven
  obtain _ | ⟨hclassPrefix', _ | ⟨hseparator', _ | ⟨hcorePlugins', _ | ⟨htheme', _ |
    ⟨hplugins', ⟨⟩⟩⟩⟩⟩⟩ := hsame
  exact ofJson?_eq_some.mpr ⟨_, _, _, _, _, hgiven',
    orderBlind_string.orElse hclassPrefix' hclassPrefix,
    orderBlind_optionalString.orElse hseparator' hseparator,
    orderBlind_corePlugins.orElse hcorePlugins' hcorePlugins,
    orderBlind_theme.orElse htheme' htheme,
    orderBlind_plugin.list.orElse hplugins' hplugins⟩

/-! ## What is kept is plain -/

/-- A configuration as it is kept: the switches of the families and the tables of the theme are in
order. -/
structure Plain (c : Config) : Prop where
  flags : ∀ flags, c.corePlugins = .toggles flags → Json.Ascending flags
  extend : (Json.object c.theme.extend).Plain
  scales : (Json.object c.theme.scales).Plain

theorem plain_of_theme? {j : Json} {t : ThemeConfig} (h : theme? j = some t) :
    (Json.object t.extend).Plain ∧ (Json.object t.scales).Plain ∧
      ∀ f ∈ t.scales, f.1 ≠ "extend" := by
  obtain ⟨fields, extend, given, rfl, -, -, hextend, hscales⟩ := theme?_eq_some.mp h
  refine ⟨Json.plain_of_normalize hextend, Json.plain_of_normalize hscales, fun f hf => ?_⟩
  rw [Json.normalize_object] at hscales
  obtain ⟨vs, hvs, heq⟩ := Option.map_eq_some_iff.mp hscales
  -- the values keep their keys, so none of them is `extend`
  have hchosen := Json.normalizeFields_filter (· != "extend") hvs
  rw [List.filter_filter] at hchosen
  simp only [Bool.and_self] at hchosen
  rw [hvs] at hchosen
  rw [← Json.object.inj heq] at hf
  have hmem := Json.mem_of_mem_sortFields hf
  rw [Option.some.inj hchosen] at hmem
  simpa using (List.mem_filter.mp hmem).2

theorem plain_of_ofJson? {j : Json} {c : Config} (h : ofJson? j = some c) :
    c.Plain ∧ ∀ f ∈ c.theme.scales, f.1 ≠ "extend" := by
  obtain ⟨-, -, corePlugins, theme, -, -, -, -, hcorePlugins, htheme, -⟩ := ofJson?_eq_some.mp h
  have hflags : ∀ flags, c.corePlugins = .toggles flags → Json.Ascending flags := by
    intro flags hflags
    rw [hflags] at hcorePlugins
    cases corePlugins with
    | none => cases hcorePlugins; exact List.Pairwise.nil
    | some j =>
        rcases corePlugins?_eq_some.mp hcorePlugins with ⟨read, -, heq⟩ | ⟨_, -, heq⟩
        · rw [CorePlugins.toggles.inj heq]
          exact Json.ascending_sortFields read
        · exact absurd heq (by simp)
  cases theme with
  | none =>
      have hempty : c.theme = {} := (Option.some.inj htheme).symm
      have hplain : (Json.object []).Plain := .object List.Pairwise.nil (by simp)
      refine ⟨⟨hflags, ?_, ?_⟩, ?_⟩ <;> rw [hempty]
      · exact hplain
      · exact hplain
      · simp
  | some j =>
      obtain ⟨hextend, hscales, hnames⟩ := plain_of_theme? htheme
      exact ⟨⟨hflags, hextend, hscales⟩, hnames⟩

/-! ## Nothing is lost -/

theorem list?_map {α : Type} {decode : Json → Option α} {encode : α → Json} {as : List α}
    (h : ∀ a ∈ as, decode (encode a) = some a) :
    list? decode (.array (as.map encode)) = some as := by
  refine list?_eq_some.mpr ⟨_, rfl, ?_⟩
  rw [List.forall₂_map_left_iff, List.forall₂_same]
  exact h

theorem list?_strings (names : List String) : list? Json.string? (strings names) = some names :=
  list?_map fun _ _ => rfl

theorem layer?_layerName (l : PluginLayer) : layer? (.string (layerName l)) = some l := by
  cases l <;> rfl

theorem utility?_utilityJson (u : ValueUtility) : utility? (utilityJson u) = some u :=
  utility?_eq_some.mpr ⟨_, _, rfl, rfl, list?_strings u.values⟩

theorem plugin?_pluginJson (p : Plugin) : plugin? (pluginJson p) = some p :=
  plugin?_eq_some.mpr ⟨_, _, _, _, _, rfl, rfl, layer?_layerName p.layer, list?_strings p.classes,
    list?_map fun u _ => utility?_utilityJson u, list?_strings p.variants⟩

theorem corePlugins?_corePluginsJson {c : CorePlugins}
    (h : ∀ flags, c = .toggles flags → Json.Ascending flags) :
    corePlugins? (corePluginsJson c) = some c := by
  cases c with
  | toggles flags =>
      refine corePlugins?_eq_some.mpr (.inl ⟨flags, rfl, ?_⟩)
      rw [Json.sortFields_of_ascending (h flags rfl)]
  | allow names => exact corePlugins?_eq_some.mpr (.inr ⟨names, rfl, rfl⟩)

theorem theme?_themeJson {t : ThemeConfig} (hextend : (Json.object t.extend).Plain)
    (hscales : (Json.object t.scales).Plain) (hnames : ∀ f ∈ t.scales, f.1 ≠ "extend") :
    theme? (themeJson t) = some t := by
  have hothers : (("extend", Json.object t.extend) :: t.scales).filter (·.1 != "extend") =
      t.scales := by
    rw [List.filter_cons_of_neg (by simp), List.filter_eq_self]
    simpa using hnames
  have hgiven : recordFields? [["extend"]] (themeJson t) = some [some (.object t.extend)] := by
    refine mapM_eq_some_iff.mpr (.cons (given?_eq_some.mpr ?_) .nil)
    have hnone : (t.scales.filter fun f => ["extend"].contains f.1) = [] := by
      simpa using hnames
    rw [List.filter_cons_of_pos (by simp), hnone]
    rfl
  refine theme?_eq_some.mpr ⟨_, t.extend, _, rfl, hgiven, rfl, ?_, ?_⟩
  · exact Json.normalize_of_plain hextend
  · rw [hothers]
    exact Json.normalize_of_plain hscales

/-- **A plain configuration is read back from its document.** -/
theorem ofJson?_toJson {c : Config} (h : c.Plain) (hnames : ∀ f ∈ c.theme.scales, f.1 ≠ "extend") :
    ofJson? (toJson c) = some c := by
  refine ofJson?_eq_some.mpr ⟨_, _, _, _, _, rfl, rfl, ?_, corePlugins?_corePluginsJson h.flags,
    theme?_themeJson h.extend h.scales hnames, list?_map fun p _ => plugin?_pluginJson p⟩
  cases c.separator <;> rfl

theorem usable_utilityJson (u : ValueUtility) : (utilityJson u).Usable := by
  refine Json.usable_object ?_
  simpa using ⟨(Json.Plain.string u.root).usable, (plain_strings u.values).usable⟩

theorem usable_pluginJson (p : Plugin) : (pluginJson p).Usable := by
  refine Json.usable_object ?_
  simpa using ⟨(Json.Plain.string p.name).usable, (Json.Plain.string (layerName p.layer)).usable,
    (plain_strings p.classes).usable, Json.usable_map usable_utilityJson p.utilities,
    (plain_strings p.variants).usable⟩

theorem usable_corePluginsJson (c : CorePlugins) : (corePluginsJson c).Usable := by
  cases c with
  | toggles flags => exact ⟨_, congrArg (Option.map _) (normalizeFields_flagFields flags)⟩
  | allow names => exact (plain_strings names).usable

theorem usable_themeJson {t : ThemeConfig} (hextend : (Json.object t.extend).Plain)
    (hscales : (Json.object t.scales).Plain) : (themeJson t).Usable := by
  refine Json.usable_object (List.forall_mem_cons.mpr ⟨hextend.usable, fun f hf => ?_⟩)
  cases hscales with
  | object _ hvalues => exact (hvalues f hf).usable

/-- The document of a configuration has a plain form. -/
theorem usable_toJson {c : Config} (h : c.Plain) : (toJson c).Usable := by
  have hseparator : (c.separator.elim Json.null Json.string).Usable := by
    cases c.separator with
    | none => exact Json.Plain.null.usable
    | some s => exact (Json.Plain.string s).usable
  refine Json.usable_object ?_
  simpa using ⟨(Json.Plain.string c.classPrefix).usable, hseparator,
    usable_corePluginsJson c.corePlugins, usable_themeJson h.extend h.scales,
    Json.usable_map usable_pluginJson c.plugins⟩

/-- **A configuration survives being written as a document and read again**, in the order in which
it is written and in the order of the keys. What is asked of it holds of every configuration that is
read from a text. -/
theorem configurations_survive_documents :
    (∀ c : Config, c.Plain → (∀ f ∈ c.theme.scales, f.1 ≠ "extend") →
      ofJson? (toJson c) = some c ∧ ∃ v, (toJson c).normalize = some v ∧ ofJson? v = some c) ∧
    ∀ (format : Format) (contents : Text) (c : Config), parse? format contents = some c →
      c.Plain ∧ ∀ f ∈ c.theme.scales, f.1 ≠ "extend" := by
  constructor
  · intro c hplain hnames
    have hread := ofJson?_toJson hplain hnames
    obtain ⟨v, hv⟩ := usable_toJson hplain
    exact ⟨hread, v, hv, ofJson?_normalize _ _ _ hv hread⟩
  · intro format contents c h
    obtain ⟨j, -, h⟩ := Option.bind_eq_some_iff.mp h
    split at h
    · exact plain_of_ofJson? h
    · exact absurd h (by simp)

/-- A configuration with something in every field. -/
def fullConfig : Config where
  classPrefix := "tw-"
  separator := some ""
  corePlugins := .toggles [("clear", true), ("float", false)]
  theme :=
    { extend := [("colors", .object [("500", .string "#456"), ("DEFAULT", .null)])]
      scales := [("screens", .array [.number (.natural 640), .object []])] }
  plugins := [{ name := "clamp", layer := .components, utilities := [⟨"line-clamp", ["1", "2"]⟩] }]

theorem plain_fullConfig : fullConfig.Plain := by
  have hextend : (Json.object fullConfig.theme.extend).normalize = some (.object _) := rfl
  have hscales : (Json.object fullConfig.theme.scales).normalize = some (.object _) := rfl
  refine ⟨fun flags h => ?_, Json.plain_of_normalize hextend, Json.plain_of_normalize hscales⟩
  cases h
  exact List.pairwise_pair.mpr (by decide)

/-- A theme with a table of extensions and a scale beside it. -/
def themeText : Text :=
  "\x7b\"theme\": \x7b\"extend\": \x7b\"a\": [1]\x7d, \"b\": \x7b\x7d\x7d\x7d".toList

theorem configurations_survive_documents_full :
    ofJson? (toJson fullConfig) = some fullConfig ∧
    (∃ v, (toJson fullConfig).normalize = some v ∧ ofJson? v = some fullConfig) ∧
    ∃ c, parse? .json themeText = some c ∧ c.theme.scales.map Prod.fst = ["b"] ∧ c.Plain := by
  obtain ⟨hsurvive, hread⟩ := configurations_survive_documents
  obtain ⟨hback, hplain⟩ := hsurvive fullConfig plain_fullConfig (by simp [fullConfig])
  have hscales : (parse? .json themeText).map (·.theme.scales.map Prod.fst) = some ["b"] := by
    decide +kernel
  obtain ⟨c, hc, hnames⟩ := Option.map_eq_some_iff.mp hscales
  exact ⟨hback, hplain, c, hc, hnames, (hread .json themeText c hc).1⟩

end ClassSort.Config
