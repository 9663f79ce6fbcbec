import ClassSort.Proofs.KeptKeywords
import ClassSort.Proofs.ParamsEnd
import ClassSort.Proofs.Replacements

/-!
# The flag at the end of a rule

A rule may end with the flag `!important`, which is no class and must stay behind the classes. It
would not do so on its own: nothing ranks it, and what is not ranked goes to the front. So the unit
of the rule ends before the flag. **The flag is there exactly if the last word of the parameters is
`!important`**, whatever blanks stand around it; glued to a class it is part of that class.

Behind the unit everything stays as it is, and the unit keeps the blank at its end, so the flag is
still a word of its own when the classes before it have been sorted. No unit of another rule reaches
into the flag either, whatever the keywords of the source are, because there is no `@` in it.
-/

namespace ClassSort

namespace Stylesheet

open ClassList

/-! ## The last word -/

theorem words_flag {blanks : Text} (h : Text.allBlank blanks = true) :
    words (importantFlag ++ blanks) = [importantFlag] := by
  rw [words_append_of_allBlank _ h]
  decide

/-- Behind a text that ends with a blank the flag is a word of its own. -/
theorem words_append_flag {t blanks : Text} (ht : lastRun t = [])
    (h : Text.allBlank blanks = true) :
    words (t ++ (importantFlag ++ blanks)) = words t ++ [importantFlag] := by
  have hfront : front t = t := by
    have hsplit := front_append_lastRun t
    rwa [ht, List.append_nil] at hsplit
  rw [← words_flag h]
  have happend := words_front_append t (importantFlag ++ blanks)
  rwa [hfront] at happend

theorem Flagged.lastRun_eq_nil {params classes blanks : Text} (h : Flagged params classes blanks) :
    lastRun classes = [] := by
  rcases h.apart with rfl | hblank
  · rfl
  · exact lastRun_of_endsBlank hblank

/-- Without the blanks at its end a text ends with its last word, if it has one. -/
theorem lastRun_trimEnd {t : Text} (h : lastRun (Text.trimEnd t) = []) : Text.trimEnd t = [] := by
  have hsplit := front_append_lastRun (Text.trimEnd t)
  rw [h, List.append_nil] at hsplit
  rcases front_cases (Text.trimEnd t) with hnil | ⟨cs, c, hconcat, hc⟩
  · exact hsplit.symm.trans hnil
  · have hrev : t.reverse.dropWhile Text.isBlank = c :: cs.reverse := by
      have hends := congrArg List.reverse (hsplit.symm.trans hconcat)
      simpa [Text.trimEnd] using hends
    have hhead := List.head?_dropWhile_not Text.isBlank t.reverse
    rw [hrev] at hhead
    exact absurd hc (by simpa using hhead)

/-- **The parameters have a flag exactly if their last word is one.** -/
theorem getLast?_words_iff {params : Text} :
    (words params).getLast? = some importantFlag ↔
      ∃ classes blanks, Flagged params classes blanks := by
  constructor
  · intro hlast
    obtain ⟨blanks, hblanks, hall⟩ := exists_trimEnd params
    have hwords : words params = words (Text.trimEnd params) := by
      conv_lhs => rw [hblanks]
      exact words_append_of_allBlank _ hall
    rw [hwords, words_eq_lastRun] at hlast
    by_cases hrun : lastRun (Text.trimEnd params) = []
    · rw [lastRun_trimEnd hrun] at hlast
      exact absurd hlast (by decide)
    · rw [solo, if_neg hrun, List.getLast?_concat] at hlast
      have hflag := Option.some.inj hlast
      refine ⟨front (Text.trimEnd params), blanks, ?_, ?_, hall⟩
      · rw [← List.append_assoc, ← hflag, front_append_lastRun]
        exact hblanks
      · rcases front_cases (Text.trimEnd params) with hnil | ⟨cs, c, hconcat, hc⟩
        · exact .inl hnil
        · refine .inr ?_
          rw [hconcat]
          unfold Text.endsBlank
          rw [List.reverse_append]
          exact hc
  · rintro ⟨classes, blanks, h⟩
    rw [h.split, words_append_flag h.lastRun_eq_nil h.blanks, List.getLast?_concat]

theorem Flagged.withoutFlag_eq {params classes blanks : Text} (h : Flagged params classes blanks) :
    withoutFlag params = classes := by
  rcases withoutFlag_cases params with ⟨blanks', h'⟩ | ⟨-, hno⟩
  · exact Option.some.inj (h'.before?_trimEnd.symm.trans h.before?_trimEnd)
  · exact absurd h (hno classes blanks)

/-! ## The unit of a rule -/

/-- A rule in a source: its parameters go from `start` to `stop`. -/
structure RuleAt (source : Text) (start stop : Nat) (before params behind : Text) : Prop where
  split : source = before ++ (params ++ behind)
  start : Text.size before = start
  stop : Text.size (before ++ params) = stop

variable {source before params behind : Text} {start stop : Nat}

/-- **The unit of a rule covers its parameters without the flag**, and there is none if only blanks
are left. -/
theorem ruleUnit?_of_end (h : paramsEnd? source start = some stop) :
    ∃ before params behind, RuleAt source start stop before params behind ∧
      ruleUnit? source start =
        if Text.allBlank (withoutFlag params) then none
        else some (.list ⟨⟨start, start + Text.size (withoutFlag params)⟩, .atRuleParams, .atRule,
          {}⟩) := by
  obtain ⟨cs, hcs, hread⟩ := Option.bind_eq_some_iff.mp h
  obtain ⟨params, hparams, rfl⟩ := Option.map_eq_some_iff.mp hread
  obtain ⟨before, hsource, hstart⟩ := Text.drop?_eq_some.mp hcs
  obtain ⟨behind, hbehind, -⟩ := Reader.read_split (r := {}) hparams
  refine ⟨before, params, behind, ⟨by rw [hsource, hbehind], hstart, ?_⟩, ?_⟩
  · rw [Text.size_append, hstart]
  · unfold ruleUnit?
    rw [hcs]
    show (params? cs).bind _ = _
    rw [hparams]
    rfl

variable {ks : List AtKeyword} {us : List ClassUnit}

theorem UnitsOfRules.mem_iff (hus : UnitsOfRules source ks us) {k : AtKeyword} (hk : k ∈ ks)
    {u : ClassUnit} :
    u ∈ us ∧ u.span.start = k.span.stop ↔ ruleUnit? source k.span.stop = some u := by
  constructor
  · rintro ⟨hu, hstart⟩
    obtain ⟨k', -, hunit⟩ := (hus u).mp hu
    rwa [← start_of_ruleUnit? hunit, hstart] at hunit
  · intro h
    exact ⟨(hus u).mpr ⟨k, hk, h⟩, start_of_ruleUnit? h⟩

/-- Where the edits of rules begin. -/
theorem UnitsOfRules.exists_keyword (hus : UnitsOfRules source ks us) {r : Ranking} {e : Edit}
    (he : e ∈ Edit.made source (ClassUnit.edits source r us)) :
    ∃ k ∈ ks, ∃ u, ruleUnit? source k.span.stop = some u ∧ u.edit? source r = some e ∧
      e.span.start = k.span.stop := by
  obtain ⟨u, hu, hedit⟩ := List.mem_filterMap.mp (Edit.mem_of_mem_made he)
  obtain ⟨k, hk, hunit⟩ := (hus u).mp hu
  refine ⟨k, hk, u, hunit, hedit, ?_⟩
  rw [ClassUnit.span_of_edit? hedit, start_of_ruleUnit? hunit]

/-! ## No rule begins in a flag -/

theorem at_notMem_flag {blanks : Text} (h : Text.allBlank blanks = true) :
    '@' ∉ importantFlag ++ blanks := by
  intro hmem
  rcases List.mem_append.mp hmem with hflag | hblank
  · exact absurd hflag (by decide)
  · exact absurd (List.all_eq_true.mp h '@' hblank) (by decide)

theorem exists_concat_of_endsBlank {t : Text} (h : Text.endsBlank t = true) :
    ∃ init c, t = init ++ [c] ∧ Text.isBlank c = true := by
  unfold Text.endsBlank at h
  cases hrev : t.reverse with
  | nil =>
      rw [hrev] at h
      cases h
  | cons c init =>
      rw [hrev] at h
      refine ⟨init.reverse, c, ?_, h⟩
      rw [← List.reverse_cons, ← hrev, List.reverse_reverse]

/-- A keyword that ends behind the classes of a rule ends behind its flag as well. -/
theorem KeywordsIn.flag_le (hks : KeywordsIn source ks) {classes blanks : Text}
    (hrule : RuleAt source start stop before params behind)
    (hflag : Flagged params classes blanks) (hblank : Text.endsBlank classes = true) {k : AtKeyword}
    (hk : k ∈ ks) (hle : start + Text.size classes ≤ k.span.stop) : stop ≤ k.span.stop := by
  obtain ⟨init, c, rfl, hc⟩ := exists_concat_of_endsBlank hblank
  have hsource : source = (before ++ (init ++ [c])) ++ ((importantFlag ++ blanks) ++ behind) := by
    rw [hrule.split, hflag.split]
    simp
  have hkeyword := not_isKeywordChar_of_partsWords (partsWords_of_isBlank hc)
  have hat : c ≠ '@' := by
    rintro rfl
    exact absurd hc (by decide)
  -- it begins behind the blank, and there is no `@` up to the end of the flag
  have hbegin : Text.size (before ++ (init ++ [c])) ≤ k.span.start := by
    have hblank : source = (before ++ init ++ [c]) ++ ((importantFlag ++ blanks) ++ behind) := by
      rw [hsource, ← List.append_assoc before]
    rw [← hrule.start, ← Text.size_append, ← List.append_assoc] at hle
    rw [← List.append_assoc]
    exact hks.le_start_of_le_stop hk hblank hat hkeyword hle
  have hend := hks.le_start_of_notMem hk hsource (at_notMem_flag hflag.blanks) hbegin
  have hforward := hks.start_lt_stop hk
  have hstop : Text.size (before ++ (init ++ [c]) ++ (importantFlag ++ blanks)) = stop := by
    rw [← hrule.stop, hflag.split]
    simp
  omega

/-- **The flag is where it was when all edits have been made.** -/
theorem slice?_flagged (hks : KeywordsIn source ks) (hus : UnitsOfRules source ks us)
    (hrule : RuleAt source start stop before params behind) {classes blanks : Text}
    (hflag : Flagged params classes blanks) (hblank : Text.endsBlank classes = true) {r : Ranking}
    {e : Edit} (he : e ∈ Edit.made source (ClassUnit.edits source r us))
    (hspan : e.span = ⟨start, start + Text.size classes⟩) :
    ∃ out, Edit.applyAll source (ClassUnit.edits source r us) = some out ∧
      Text.slice? out ((⟨start, stop⟩ : Span).map
          (Edit.moved (Edit.made source (ClassUnit.edits source r us)))) =
        some (e.text ++ (importantFlag ++ blanks)) := by
  obtain ⟨out, hout, hpass⟩ := ClassUnit.exists_spliceEvery source r us
  have hrow := ClassUnit.inRow_made source r us
  have hstop : start + Text.size classes + Text.size (importantFlag ++ blanks) = stop := by
    rw [← hrule.stop, hflag.split, ← hrule.start]
    simp only [Text.size_append]
    omega
  have hold : Text.slice? source ⟨start + Text.size classes, stop⟩ =
      some (importantFlag ++ blanks) := by
    refine Text.slice?_eq_some.mpr ⟨before ++ classes, behind, ?_, ?_, hstop⟩
    · rw [hrule.split, hflag.split]
      simp
    · rw [Text.size_append, hrule.start]
  have hfree : ∀ e' ∈ Edit.made source (ClassUnit.edits source r us),
      e'.span.Separate ⟨start + Text.size classes, stop⟩ := by
    intro e' he'
    by_cases hsame : e' = e
    · have hends : e'.span.stop = start + Text.size classes := by rw [hsame, hspan]
      exact .inl (Nat.le_of_eq hends)
    · have hpairs := hrow.ordered.imp fun {a b} h => (.inl h : a.span.Separate b.span)
      rcases Span.Separate.of_pairwise hpairs he' he hsame with hbefore | hbehind
      · rw [hspan] at hbefore
        exact .inl (Nat.le_trans hbefore (Nat.le_add_right _ _))
      · -- its keyword ends behind the classes, and so behind the flag
        obtain ⟨k, hk, -, -, -, hstart⟩ := hus.exists_keyword he'
        rw [hspan, hstart] at hbehind
        have hle := hks.flag_le hrule hflag hblank hk hbehind
        exact .inr (by rw [hstart]; exact hle)
  have hclasses := Edit.slice?_moved_self hpass hrow he
  have hkept := Edit.slice?_moved hpass hrow (by show start + Text.size classes ≤ stop; omega) hfree
  rw [hspan] at hclasses
  exact ⟨out, hout, Text.slice?_join hclasses (hkept.trans hold)⟩

/-- How the parameters of a rule with a flag are written: the text from the flag on is the same, the
words are permuted, and the flag is the last one. -/
structure KeepsFlag (params blanks new : Text) : Prop where
  rest : importantFlag ++ blanks <:+ new
  perm : (words new).Perm (words params)
  last : (words new).getLast? = some importantFlag

theorem keepsFlag_sort {classes blanks : Text} (h : Flagged params classes blanks) (r : Ranking) :
    KeepsFlag params blanks (sort r {} classes ++ (importantFlag ++ blanks)) := by
  have hsorted := rewritten_sort r {} classes
  -- the blank before the flag is kept
  have hrun := hsorted.lastRun_eq_nil.mpr h.lastRun_eq_nil
  refine ⟨List.suffix_append _ _, ?_, ?_⟩
  · rw [words_append_flag hrun h.blanks, h.split, words_append_flag h.lastRun_eq_nil h.blanks]
    exact hsorted.words.append_right _
  · rw [words_append_flag hrun h.blanks, List.getLast?_concat]

/-- What sorting makes of the parameters of a rule with a flag, in the edit of its unit alone and
among the edits of the whole source. -/
theorem exists_keepsFlag (hks : KeywordsIn source ks) (hus : UnitsOfRules source ks us)
    (hrule : RuleAt source start stop before params behind) {classes blanks : Text}
    (hflag : Flagged params classes blanks) (hblank : Text.endsBlank classes = true) {c : ClassSpan}
    (hunit : ruleUnit? source start = some (.list c))
    (hspan : c.span = ⟨start, start + Text.size classes⟩) (hends : c.ends = {}) (r : Ranking) :
    ∃ new, KeepsFlag params blanks new ∧
      Edit.applyAll source (ClassUnit.edits source r [.list c]) = some (before ++ (new ++ behind)) ∧
      ∀ e ∈ Edit.made source (ClassUnit.edits source r us), e.span.start = start →
        ∃ out, Edit.applyAll source (ClassUnit.edits source r us) = some out ∧
          Text.slice? out ((⟨start, stop⟩ : Span).map
            (Edit.moved (Edit.made source (ClassUnit.edits source r us)))) = some new := by
  have hsource : source = before ++ (classes ++ (importantFlag ++ blanks ++ behind)) := by
    rw [hrule.split, hflag.split]
    simp
  have hplace : c.span = ⟨Text.size before, Text.size before + Text.size classes⟩ := by
    rw [hspan, hrule.start]
  refine ⟨_, keepsFlag_sort hflag r, ?_, ?_⟩
  · rw [Edit.applyAll_list r hsource hplace, hends]
    simp
  · intro e he hstart
    -- only the unit of this rule has its edit here
    obtain ⟨k, -, u, hunit', hedit, hstop⟩ := hus.exists_keyword he
    rw [← hstop, hstart, hunit] at hunit'
    obtain rfl := Option.some.inj hunit'
    rw [ClassUnit.edit?_list r hsource hplace] at hedit
    obtain rfl := Edit.eq_of_unlessSame hedit
    rw [← hends]
    exact slice?_flagged hks hus hrule hflag hblank he hspan

/-- What becomes of the parameters of a rule, from `start` to `stop`, when units of the source are
sorted. -/
structure FlagKept (source : Text) (us : List ClassUnit) (start stop : Nat)
    (before params behind : Text) : Prop where
  rule : RuleAt source start stop before params behind
  flagged : (words params).getLast? = some importantFlag →
    ∃ classes blanks, Flagged params classes blanks ∧
      (Text.allBlank classes = true → ∀ u ∈ us, u.span.start ≠ start) ∧
      (Text.allBlank classes = false → ∃ u ∈ us, u.span = ⟨start, start + Text.size classes⟩) ∧
      ∀ u ∈ us, u.span.start = start → ∀ r : Ranking,
        ∃ new, KeepsFlag params blanks new ∧
          Edit.applyAll source (ClassUnit.edits source r [u]) = some (before ++ (new ++ behind)) ∧
          ∀ e ∈ Edit.made source (ClassUnit.edits source r us), e.span.start = start →
            ∃ out, Edit.applyAll source (ClassUnit.edits source r us) = some out ∧
              Text.slice? out ((⟨start, stop⟩ : Span).map
                (Edit.moved (Edit.made source (ClassUnit.edits source r us)))) = some new
  whole : (words params).getLast? ≠ some importantFlag →
    ∀ u ∈ us, u.span.start = start → u.span = ⟨start, stop⟩
  blank : Text.allBlank params = true → ∀ u ∈ us, u.span.start ≠ start

/-- **The flag stays behind the classes, whatever the keywords of the source are.** -/
theorem exists_flagKept (hks : KeywordsIn source ks) (hus : UnitsOfRules source ks us)
    {k : AtKeyword} (hk : k ∈ ks) (hend : paramsEnd? source k.span.stop = some stop) :
    ∃ before params behind, FlagKept source us k.span.stop stop before params behind := by
  obtain ⟨before, params, behind, hrule, hunit⟩ := ruleUnit?_of_end hend
  have hunits : ∀ u ∈ us, u.span.start = k.span.stop → ruleUnit? source k.span.stop = some u :=
    fun u hu hstart => (hus.mem_iff hk).mp ⟨hu, hstart⟩
  have hnone : Text.allBlank (withoutFlag params) = true →
      ∀ u ∈ us, u.span.start ≠ k.span.stop := by
    intro hblank u hu hstart
    rw [hunits u hu hstart, if_pos hblank] at hunit
    exact absurd hunit (by simp)
  refine ⟨before, params, behind, hrule, ?_, ?_, ?_⟩
  · intro hlast
    obtain ⟨classes, blanks, hflag⟩ := getLast?_words_iff.mp hlast
    rw [hflag.withoutFlag_eq] at hunit hnone
    refine ⟨classes, blanks, hflag, hnone, ?_, ?_⟩
    · intro hink
      rw [if_neg (by rw [hink]; simp)] at hunit
      exact ⟨_, ((hus.mem_iff hk).mpr hunit).1, rfl⟩
    · intro u hu hstart r
      have hunit' := hunits u hu hstart
      have hink : Text.allBlank classes ≠ true := fun h => hnone h u hu hstart
      rw [hunit', if_neg hink] at hunit
      obtain rfl := Option.some.inj hunit
      have hblank : Text.endsBlank classes = true := by
        refine hflag.apart.resolve_left ?_
        rintro rfl
        exact hink rfl
      exact exists_keepsFlag hks hus hrule hflag hblank hunit' rfl rfl r
  · intro hlast u hu hstart
    have hwhole : withoutFlag params = params := by
      rcases withoutFlag_cases params with ⟨blanks, hflag⟩ | ⟨hsame, -⟩
      · exact absurd (getLast?_words_iff.mpr ⟨_, blanks, hflag⟩) hlast
      · exact hsame
    rw [hunits u hu hstart, hwhole] at hunit
    split at hunit
    · exact absurd hunit (by simp)
    · obtain rfl := Option.some.inj hunit
      show (⟨_, _⟩ : Span) = _
      rw [← hrule.stop, Text.size_append, hrule.start]
  · intro hblank
    refine hnone (List.all_eq_true.mpr fun c hc => ?_)
    exact List.all_eq_true.mp hblank c ((withoutFlag_isPrefix params).subset hc)

end Stylesheet

namespace Parser

open ClassList Stylesheet

variable {p : Parser} {source : Text} {stop : Nat}

/--
**The flag stays behind the classes.**

Let the parameters of a rule with classes end at `stop`. If their last word is `!important`, the
unit of the rule ends before it, and there is none if nothing but blanks is before it. The edit of
the unit, made on its own, writes parameters that keep the flag, and changes nothing around them.
The same parameters are found in the sorted source whenever the edit is among those that are made.
Without a flag the unit covers the parameters as a whole, and there is none if they are blank.
-/
theorem important_flag_stays_last (hp : p.language = .stylesheet) {k : AtKeyword}
    (hk : k ∈ classKeywords source) (hend : paramsEnd? source k.span.stop = some stop) :
    ∃ before params behind, RuleAt source k.span.stop stop before params behind ∧
      ((words params).getLast? = some importantFlag →
        ∃ classes blanks, Flagged params classes blanks ∧
          (Text.allBlank classes = true →
            ∀ u ∈ p.language.units source, u.span.start ≠ k.span.stop) ∧
          (Text.allBlank classes = false → ∃ u ∈ p.language.units source,
            u.span = ⟨k.span.stop, k.span.stop + Text.size classes⟩) ∧
          ∀ u ∈ p.language.units source, u.span.start = k.span.stop → ∀ r : Ranking,
            ∃ new, KeepsFlag params blanks new ∧
              Edit.applyAll source (ClassUnit.edits source r.ofSource [u]) =
                some (before ++ (new ++ behind)) ∧
              ∀ e ∈ p.edits r source, e.span.start = k.span.stop →
                ∃ out, p.sortClasses r source = some out ∧
                  Text.slice? out
                      ((⟨k.span.stop, stop⟩ : Span).map (Edit.moved (p.edits r source))) =
                    some new) ∧
      ((words params).getLast? ≠ some importantFlag →
        ∀ u ∈ p.language.units source, u.span.start = k.span.stop →
          u.span = ⟨k.span.stop, stop⟩) ∧
      (Text.allBlank params = true →
        ∀ u ∈ p.language.units source, u.span.start ≠ k.span.stop) := by
  have hks : KeywordsIn source (classKeywords source) :=
    (keywordsIn_atKeywords source).sublist List.filter_sublist
  have hus := unitsOfRules_units source
  rw [← hp] at hus
  obtain ⟨before, params, behind, h⟩ := exists_flagKept hks hus hk hend
  refine ⟨before, params, behind, h.rule, fun hlast => ?_, h.whole, h.blank⟩
  obtain ⟨classes, blanks, hflag, hnone, hsome, hsorted⟩ := h.flagged hlast
  refine ⟨classes, blanks, hflag, hnone, hsome, fun u hu hstart r => ?_⟩
  obtain ⟨new, hkeeps, halone, hmade⟩ := hsorted u hu hstart r.ofSource
  refine ⟨new, hkeeps, halone, fun e he hestart => ?_⟩
  rw [sortClasses_eq]
  exact hmade e he hestart

/-- A rule with a flag between its classes and one at the end. -/
def flaggedRule : Text := ".x \x7b @apply b !important é a\t!important  ; \x7d".toList

/-- Its unit ends before the second flag. -/
def flaggedUnit : ClassUnit := .list ⟨⟨11, 30⟩, .atRuleParams, .atRule, {}⟩

/-- The first flag goes to the front and the second stays. -/
theorem important_flag_stays_last_repeated :
    flaggedUnit ∈ Parser.css.language.units flaggedRule ∧
    Parser.css.sortClasses (Ranking.ofNames ["a".toList, "b".toList]) flaggedRule =
      some ".x \x7b @apply !important é a b\t!important  ; \x7d".toList ∧
    ∃ before params behind, RuleAt flaggedRule 11 42 before params behind ∧
      (words params).getLast? = some importantFlag ∧
      ∃ blanks new, KeepsFlag params blanks new ∧
        Edit.applyAll flaggedRule (ClassUnit.edits flaggedRule
          (Ranking.ofNames ["a".toList, "b".toList]).ofSource [flaggedUnit]) =
            some (before ++ (new ++ behind)) := by
  have hkeyword : (⟨"@apply".toList, ⟨5, 11⟩⟩ : AtKeyword) ∈ classKeywords flaggedRule := by
    have hall : classKeywords flaggedRule = [⟨"@apply".toList, ⟨5, 11⟩⟩] := by decide +kernel
    rw [hall]
    exact List.mem_singleton_self _
  have hend : paramsEnd? flaggedRule 11 = some 42 := by decide +kernel
  have hunit : flaggedUnit ∈ Parser.css.language.units flaggedRule := by
    have hall : Parser.css.language.units flaggedRule = [flaggedUnit] := by decide +kernel
    rw [hall]
    exact List.mem_singleton_self _
  obtain ⟨before, params, behind, hrule, hflagged, hwhole, -⟩ :=
    important_flag_stays_last (p := Parser.css) rfl hkeyword hend
  have hlast : (words params).getLast? = some importantFlag :=
    Decidable.byContradiction fun hne =>
      absurd (hwhole hne flaggedUnit hunit rfl) (by decide)
  obtain ⟨classes, blanks, -, -, -, hsorted⟩ := hflagged hlast
  obtain ⟨new, hkeeps, hmade, -⟩ := hsorted flaggedUnit hunit rfl _
  exact ⟨hunit, by decide +kernel, before, params, behind, hrule, hlast, blanks, new, hkeeps, hmade⟩

end Parser

end ClassSort
