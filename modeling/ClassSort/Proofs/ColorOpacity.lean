import ClassSort.Proofs.CandidateGrammar
import ClassSort.Vocabulary.Rule

/-!
# Colors with an opacity

A color may have an opacity behind it, after a slash: `red-500/50`. The slash that counts is the
last one outside brackets, so `[rgb(0_0_0/50%)]` is a color without an opacity. Brackets are counted
and not matched: one that opens adds a level and one that closes takes a level away, whatever their
kinds, and one that closes nothing is passed over.

The search for this slash is specified from both sides. It finds nothing exactly if no slash stands
outside brackets, and it finds a place exactly if the brackets are closed there and no slash stands
outside brackets behind it. From this follows **what is looked up as the color**: what stands before
the slash, if there is something on both sides of it, and the whole value otherwise.
-/

namespace ClassSort

open ClassSort.Candidate (level depth isPlain Whole Uncut UncutFrom)

/-- A text is the name of a color, or a color written out in brackets. -/
def Theme.IsColor (theme : Theme) (color : Text) : Prop :=
  theme.hasColor (String.ofList color) = true ∨ Values.isArbitraryOf (· == .color) color = true

namespace Values

/-! ## The last slash outside brackets -/

/-- **What the search does at a character.** It takes what it finds behind the character, and
only if that is nothing the character itself. -/
theorem splitLastSlash_cons (d : Nat) (c : Char) (cs : Text) :
    splitLastSlash d (c :: cs) =
      ((splitLastSlash (level d c) cs).map (Prod.map (c :: ·) id)).or
        (if c = '/' ∧ d = 0 then some ([], cs) else none) := by
  have hbracket (h : isPlain c = false) : ¬ (c = '/' ∧ d = 0) := by
    rintro ⟨rfl, -⟩
    exact absurd h (by decide)
  rw [splitLastSlash, level]
  by_cases hopens : Candidate.opens c = true
  · rw [if_pos hopens, if_pos hopens, if_neg (hbracket (by simp [isPlain, hopens])), Option.or_none]
    rfl
  by_cases hcloses : Candidate.closes c = true
  · rw [if_neg hopens, if_neg hopens, if_pos hcloses, if_pos hcloses,
      if_neg (hbracket (by simp [isPlain, hcloses])), Option.or_none]
    rfl
  rw [if_neg hopens, if_neg hopens, if_neg hcloses, if_neg hcloses]
  cases splitLastSlash d cs with
  | none => simp
  | some parts => rfl

/-- Nothing is found exactly if all slashes stand inside brackets. -/
theorem splitLastSlash_eq_none_iff {d : Nat} {cs : Text} :
    splitLastSlash d cs = none ↔ UncutFrom ['/'] d cs := by
  induction cs generalizing d with
  | nil => exact iff_of_true rfl (Candidate.uncutFrom_nil _ d)
  | cons c cs ih =>
      have hhere : ¬ (c = '/' ∧ d = 0) ↔ (isPlain c = true → d = 0 → ¬ ['/'] <+: c :: cs) := by
        constructor
        · rintro hnot - hd ⟨rest, hrest⟩
          exact hnot ⟨(List.cons.inj hrest).1.symm, hd⟩
        · rintro hnot ⟨rfl, hd⟩
          exact hnot (by decide) hd ⟨cs, rfl⟩
      rw [splitLastSlash_cons, Option.or_eq_none_iff, Option.map_eq_none_iff, ih,
        Candidate.uncutFrom_cons, ← hhere, ite_eq_right_iff, and_comm]
      simp

/-- What is found is a slash outside brackets, with none behind it. -/
theorem eq_of_splitLastSlash {d : Nat} {cs before after : Text}
    (h : splitLastSlash d cs = some (before, after)) :
    cs = before ++ '/' :: after ∧ before.foldl level d = 0 ∧ Uncut ['/'] after := by
  induction cs generalizing d before with
  | nil => exact absurd h (by simp [splitLastSlash])
  | cons c cs ih =>
      rw [splitLastSlash_cons, Option.or_eq_some_iff, Option.map_eq_some_iff] at h
      rcases h with ⟨⟨before', after'⟩, hfound, heq⟩ | ⟨hnone, hhere⟩
      · -- a slash further on
        obtain ⟨rfl, rfl⟩ := Prod.mk.inj heq
        obtain ⟨rfl, hdepth, huncut⟩ := ih hfound
        exact ⟨rfl, hdepth, huncut⟩
      · -- this character
        obtain ⟨⟨rfl, rfl⟩, heq⟩ := Option.ite_none_right_eq_some.mp hhere
        obtain ⟨rfl, rfl⟩ := Prod.mk.inj (Option.some.inj heq)
        exact ⟨rfl, rfl, splitLastSlash_eq_none_iff.mp (Option.map_eq_none_iff.mp hnone)⟩

/-- A slash outside brackets is found if there is none behind it. -/
theorem splitLastSlash_append {d : Nat} {before after : Text} (hclosed : before.foldl level d = 0)
    (hlast : Uncut ['/'] after) :
    splitLastSlash d (before ++ '/' :: after) = some (before, after) := by
  induction before generalizing d with
  | nil =>
      obtain rfl : d = 0 := hclosed
      have hnone : splitLastSlash (level 0 '/') after = none := splitLastSlash_eq_none_iff.mpr hlast
      rw [List.nil_append, splitLastSlash_cons, hnone]
      rfl
  | cons c before ih => rw [List.cons_append, splitLastSlash_cons, ih hclosed]; rfl

/-! ## The color of a value -/

/-- A value without a slash outside brackets is looked up as it is. -/
theorem withoutOpacity_of_uncut {value : Text} (h : Uncut ['/'] value) :
    withoutOpacity value = value := by
  rw [withoutOpacity, splitLastSlash_eq_none_iff.mpr h]

/-- **An opacity is taken off**, whether it closes its own brackets or not. -/
theorem withoutOpacity_append {color modifier : Text} (hcolor : color ≠ [])
    (hclosed : depth color = 0) (hmodifier : modifier ≠ []) (hlast : Uncut ['/'] modifier) :
    withoutOpacity (color ++ '/' :: modifier) = color := by
  rw [withoutOpacity, splitLastSlash_append hclosed hlast]
  simp [hcolor, hmodifier]

/-- **Only an opacity is taken off.** -/
theorem withoutOpacity_cases (value : Text) :
    withoutOpacity value = value ∨
      ∃ modifier, value = withoutOpacity value ++ '/' :: modifier ∧
        withoutOpacity value ≠ [] ∧ modifier ≠ [] ∧
        depth (withoutOpacity value) = 0 ∧ Uncut ['/'] modifier := by
  unfold withoutOpacity
  cases hfound : splitLastSlash 0 value with
  | none => exact .inl rfl
  | some parts =>
      obtain ⟨color, modifier⟩ := parts
      obtain ⟨htext, hclosed, hlast⟩ := eq_of_splitLastSlash hfound
      by_cases hempty : (color.isEmpty || modifier.isEmpty) = true
      · exact .inl (if_pos hempty)
      · -- a slash with something on both sides
        simp only [if_neg hempty]
        simp only [Bool.or_eq_true, List.isEmpty_iff, not_or] at hempty
        exact .inr ⟨modifier, htext, hempty.1, hempty.2, hclosed, hlast⟩

/-- What a rule for colors takes depends on nothing but the color of the value. -/
theorem accepts_colors_iff {theme : Theme} {value : Text} :
    (Values.colors []).accepts theme value = true ↔ theme.IsColor (withoutOpacity value) := by
  rw [accepts, List.contains_nil, Bool.false_or, Bool.or_eq_true]
  rfl

end Values

namespace Rule

theorem value?_append (root : Text) {value : Text} (h : value ≠ []) :
    value? root (root ++ '-' :: value) = some value := by
  have hroot : Text.after? root (root ++ '-' :: value) = some ('-' :: value) :=
    Candidate.after?_eq_some.mpr rfl
  have hhyphen : Text.after? ['-'] ('-' :: value) = some value := Candidate.after?_eq_some.mpr rfl
  rw [value?, hroot, Option.bind_some, hhyphen]
  cases value with
  | nil => exact absurd rfl h
  | cons c cs => rfl

/-- A root with a value is recognized if the sign is allowed and the value is one of the rule's. -/
theorem recognizes_append (theme : Theme) (root : String) (values : Values)
    (negatable negative : Bool) {value : Text} (h : value ≠ []) :
    (Rule.valued root values negatable).recognizes theme (root.toList ++ '-' :: value) negative =
      ((negatable || !negative) && values.accepts theme value) := by
  have hlonger : root.toList ++ '-' :: value ≠ root.toList := by simp
  rw [recognizes, if_neg hlonger, value?_append _ h]
  rfl

theorem recognizes_color_iff (theme : Theme) (root : String) (negatable negative : Bool)
    {value : Text} (h : value ≠ []) :
    (Rule.valued root (.colors []) negatable).recognizes theme
        (root.toList ++ '-' :: value) negative = true ↔
      (negative = true → negatable = true) ∧ theme.IsColor (Values.withoutOpacity value) := by
  have hsign : (negatable || !negative) = true ↔ (negative = true → negatable = true) := by
    cases negatable <;> cases negative <;> decide
  rw [recognizes_append _ _ _ _ _ h, Bool.and_eq_true, hsign, Values.accepts_colors_iff]

end Rule

/--
**An opacity leaves the color as it is.**

A rule that takes colors recognizes a color with an opacity behind it exactly if it recognizes the
color alone, and that one if the text is a color. The color closes its brackets and neither of the
two holds a slash outside brackets, but the opacity may leave brackets open. Of any value at all,
what is looked up as the color is the value itself or what stands before its last slash outside
brackets, and then there is something on both sides of the slash.
-/
theorem Values.opacity_leaves_color :
    (∀ (theme : Theme) (root : String) (negatable negative : Bool) (color modifier : Text),
      color ≠ [] → Whole '/' color → modifier ≠ [] → Uncut ['/'] modifier →
      ((Rule.valued root (.colors []) negatable).recognizes theme
          (root.toList ++ '-' :: (color ++ '/' :: modifier)) negative = true ↔
        (Rule.valued root (.colors []) negatable).recognizes theme
          (root.toList ++ '-' :: color) negative = true) ∧
      ((Rule.valued root (.colors []) negatable).recognizes theme
          (root.toList ++ '-' :: color) negative = true ↔
        (negative = true → negatable = true) ∧ theme.IsColor color)) ∧
    ∀ value, withoutOpacity value = value ∨
      ∃ modifier, value = withoutOpacity value ++ '/' :: modifier ∧
        withoutOpacity value ≠ [] ∧ modifier ≠ [] ∧
        depth (withoutOpacity value) = 0 ∧ Uncut ['/'] modifier := by
  refine ⟨?_, withoutOpacity_cases⟩
  intro theme root negatable negative color modifier hcolor hwhole hmodifier hlast
  have halone := Rule.recognizes_color_iff theme root negatable negative hcolor
  have hbehind := Rule.recognizes_color_iff theme root negatable negative
    (List.append_ne_nil_of_left_ne_nil hcolor ('/' :: modifier))
  rw [withoutOpacity_of_uncut hwhole.uncut] at halone
  rw [withoutOpacity_append hcolor hwhole.closed hmodifier hlast] at hbehind
  exact ⟨hbehind.trans halone.symm, halone⟩

/-- Slashes inside the brackets of the color, and inside one that the opacity leaves open. -/
theorem Values.opacity_leaves_color_bracketed :
    Whole '/' "[rgb(0_0_0/50%)]".toList ∧ Uncut ['/'] "[1/2".toList ∧
    (Rule.valued "bg" (.colors []) false).recognizes (Theme.ofConfig {})
      "bg-[rgb(0_0_0/50%)]/[1/2".toList false = true ∧
    withoutOpacity "[rgb(0_0_0/50%)]/[1/2".toList = "[rgb(0_0_0/50%)]".toList := by
  have hwhole : Whole '/' "[rgb(0_0_0/50%)]".toList := ⟨by decide, by decide⟩
  have huncut : Uncut ['/'] "[1/2".toList := splitLastSlash_eq_none_iff.mp (by decide)
  obtain ⟨hsame, hcolor⟩ := opacity_leaves_color.1 (Theme.ofConfig {}) "bg" false false
    _ _ (by decide) hwhole (by decide) huncut
  exact ⟨hwhole, huncut, hsame.mpr (hcolor.mpr ⟨by decide, .inr (by decide)⟩), by decide⟩

end ClassSort
