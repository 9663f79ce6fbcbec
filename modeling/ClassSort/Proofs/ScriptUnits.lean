import ClassSort.Proofs.DisjointUnits
import ClassSort.Proofs.ReaderBlocks
import ClassSort.Script.Attribute

/-!
# The class units of a script

Units of a script come from its attributes, and attributes nest: an attribute can hold
an expression, the expression an element, and the element attributes of its own. What
one attribute finds and what another finds are looked for independently.

Units of the same attribute never overlap. For two attributes, the later one is either
behind the whole value of the earlier, or inside an element that was passed over on the
way through that value. In that second case its units are inside the element too, because
the end of its value is found by the same rule, whoever looks for it. So **two units
overlap only if one of them is in the value of an entry of the other**.
-/

namespace ClassSort

/-- The second unit lies in the value of an entry of the first. -/
def ClassUnit.HoldsInEntry (u v : ClassUnit) : Prop :=
  u.span.start < v.span.start ∧ v.span.stop < u.span.stop ∧
    ∃ es, u = .entries es ∧ ∃ e ∈ es, e.key.span.stop ≤ v.span.start ∧ v.span.stop ≤ e.span.stop

namespace Script

/-- What begins behind a stretch, or lies in an element that was passed over in it, overlaps with the
units of the stretch only in the value of an entry. -/
theorem Block.separate_or_holdsInEntry {lo hi : Nat} {us : List ClassUnit} {els : List Span}
    (h : Block lo hi us els) {u v : ClassUnit} (hu : u ∈ us)
    (hv : hi ≤ v.span.start ∨ ∃ el ∈ els, el.start < v.span.start ∧ v.span.stop < el.stop) :
    u.span.Separate v.span ∨ u.HoldsInEntry v := by
  rcases hv with hbehind | ⟨el, hel, hstart, hstop⟩
  · have hu := (h.inside u hu).2.2
    exact .inl (.inl (by omega))
  · rcases h.apart el hel u hu with hbefore | hbehind | ⟨hustart, hustop, es, hes, e, he, hkey, hle⟩
    · exact .inl (.inl (by omega))
    · exact .inl (.inr (by omega))
    · exact .inr ⟨by omega, by omega, es, hes, e, he, by omega, by omega⟩

/-! ## Containers -/

/-- What stands in a container: nothing, or an expression. -/
theorem reads_contents {d : Dialect} {pos : Nat} {ts rest : Lexemes} {inner : Option Expr}
    (h : readContents d ts = some (inner, rest)) (hts : Ordered pos ts) :
    ∃ els stop, Passes pos ts els stop rest ∧ ∀ e ∈ inner, ExprBlock pos stop e els := by
  unfold readContents at h
  obtain ⟨q, hcomments⟩ := passes_skipComments pos ts
  split at h
  · rename_i s behind hempty
    obtain ⟨rfl, rfl⟩ := Prod.mk.inj (Option.some.inj h)
    rw [hempty] at hcomments
    exact ⟨[], q, hcomments, by simp⟩
  · rename_i s inside hspread
    obtain ⟨⟨e, ts₁⟩, hread, hpair⟩ := Option.map_eq_some_iff.mp h
    obtain ⟨rfl, rfl⟩ := Prod.mk.inj hpair
    obtain ⟨-, -, hinside⟩ := hts.token hspread
    obtain ⟨els, stop, hpass, hother⟩ := ((readers d _).expr hread hinside).prefixed hts hspread rfl
    refine ⟨els, stop, hpass, ?_⟩
    rintro e' ⟨⟩
    exact hother
  · obtain ⟨⟨e, ts₁⟩, hread, hpair⟩ := Option.map_eq_some_iff.mp h
    obtain ⟨rfl, rfl⟩ := Prod.mk.inj hpair
    obtain ⟨hq, hordered, -⟩ := hcomments.bounds hts
    obtain ⟨els, stop, hpass, hexpr⟩ := (readers d _).sequence hread hordered
    refine ⟨els, stop, hcomments.trans hpass, ?_⟩
    rintro e' ⟨⟩
    exact hexpr.mono hq (Nat.le_refl _)

/-- What stands in a container is read up to its end. -/
theorem closes_container {d : Dialect} {start pos : Nat} {ts : Lexemes} {e : Expr}
    (h : readContainer d start ts = some e) (hts : Ordered pos ts) :
    ∃ els mid stop rest, Closes pos ts .container els mid stop rest ∧
      ∀ source, Block pos mid (e.units source) els := by
  unfold readContainer at h
  obtain ⟨⟨inner, ts₁⟩, hcontents, h⟩ := Option.bind_eq_some_iff.mp h
  obtain ⟨els, p, hpass, hinner⟩ := reads_contents hcontents hts
  obtain ⟨hp, hordered, hels⟩ := hpass.bounds hts
  obtain ⟨mid, hcomments⟩ := passes_skipComments p ts₁
  obtain ⟨hmid, -, -⟩ := hcomments.bounds hordered
  dsimp only at h
  split at h
  · rename_i s rest hclose
    injection h with h
    subst h
    rw [hclose] at hcomments
    refine ⟨els, mid, s.stop, rest, ⟨_, hpass.trans_skip hcomments, rfl, rfl⟩, fun source => ?_⟩
    cases inner with
    | none =>
        have hnone : Block pos p [] els := .of_within hels
        exact hnone.mono (Nat.le_refl _) hmid
    | some e =>
        have hexpr := hinner e rfl
        have hunits := hexpr.units source .plainString
        exact hunits.mono hexpr.start (Nat.le_trans hexpr.stop hmid)
  · exact absurd h (by simp)

/-- The value of an attribute. -/
theorem valueUnits_cases (d : Dialect) (source : Text) (ts : Lexemes) :
    valueUnits d source ts = [] ∨
    (∃ a s rest, ts = a :: ⟨.attributeString, s⟩ :: rest ∧ a.kind = .punct "=" ∧
      valueUnits d source ts = stringUnits .plainString s false) ∨
    ∃ a o inside e, ts = a :: o :: inside ∧ a.kind = .punct "=" ∧ o.kind = .opening .container ∧
      readContainer d o.span.start inside = some e ∧ valueUnits d source ts = e.units source := by
  unfold valueUnits
  split
  · exact .inr (.inl ⟨_, _, _, rfl, rfl, rfl⟩)
  · rename_i s' s inside
    cases hread : readContainer d s.start inside with
    | none => exact .inl rfl
    | some e => exact .inr (.inr ⟨_, _, inside, e, rfl, rfl, rfl, hread, rfl⟩)
  · exact .inl rfl

/-- The units of a value lie in it, in order. -/
theorem passes_value {pos : Nat} {ts : Lexemes} (d : Dialect) (source : Text)
    (hts : Ordered pos ts) :
    ∃ els stop rest, Passes pos ts els stop rest ∧ Block pos stop (valueUnits d source ts) els := by
  rcases valueUnits_cases d source ts with hnone | ⟨a, s, rest, rfl, ha, hunits⟩ |
    ⟨a, o, inside, e, rfl, ha, ho, hread, hunits⟩
  · rw [hnone]
    exact ⟨[], pos, ts, .refl _ _, .nil _ _⟩
  · obtain ⟨hastart, haforward, hstart, -⟩ := hts
    rw [hunits]
    refine ⟨[], s.stop, rest, .skip (by rw [ha]; rfl) (.single rfl), ?_⟩
    exact (block_stringUnits .plainString false).mono (by dsimp only at hstart; omega) (Nat.le_refl _)
  · obtain ⟨hastart, haforward, hostart, hoforward, hinside⟩ := hts
    obtain ⟨els, mid, stop, rest, hcloses, hblock⟩ := closes_container hread hinside
    obtain ⟨-, hmid, -, -⟩ := hcloses.bounds hinside
    rw [hunits]
    refine ⟨els, stop, rest, .skip (by rw [ha]; rfl) (hcloses.group ho (by decide)), ?_⟩
    exact (hblock source).mono (by omega) (Nat.le_of_lt hmid)

/-! ## Attributes -/

variable {d : Dialect} {names : List String} {source : Text}

/-- A unit of a script belongs to one of its attributes. -/
theorem attribute_of_mem {ts : Lexemes} {u : ClassUnit}
    (h : u ∈ attributeUnitsIn d names source ts) :
    ∃ name s after, ⟨.attribute name, s⟩ :: after <:+ ts ∧ u ∈ valueUnits d source after := by
  induction ts with
  | nil => exact absurd h (by simp [attributeUnitsIn])
  | cons t ts ih =>
      rw [attributeUnitsIn] at h
      rcases List.mem_append.mp h with h | h
      · obtain ⟨kind, s⟩ := t
        dsimp only at h
        split at h
        · split at h
          · exact ⟨_, s, ts, List.suffix_refl _, h⟩
          · exact absurd h (by simp)
        · exact absurd h (by simp)
      · obtain ⟨name, s, after, hsuffix, hu⟩ := ih h
        exact ⟨name, s, after, hsuffix.trans (List.suffix_cons _ _), hu⟩

/-- The units of an attribute inside an element are inside that element. -/
theorem inside_of_endsElement {s : Span} {after : Lexemes} {n : Nat}
    (h : Passes.EndsElement s after n) (hafter : Ordered s.stop after) {u : ClassUnit}
    (hu : u ∈ valueUnits d source after) : s.stop < u.span.start ∧ u.span.stop < n := by
  obtain ⟨els, stop, rest, hpass, hblock⟩ := passes_value d source hafter
  obtain ⟨hstart, -, hstop⟩ := hblock.inside u hu
  obtain ⟨els', stop', c, rest', hend, hc, hle⟩ := h
  have hbefore := hpass.stop_le_closing hend hc hafter
  obtain ⟨-, ⟨hcstart, hcforward, -⟩, -⟩ := hend.bounds hafter
  omega

/-- A unit of an attribute, and a unit of an attribute further on. -/
theorem separate_or_holdsInEntry {pos : Nat} {σ : List Delimiter} {ts after : Lexemes} {name : String}
    {s : Span} {u v : ClassUnit} (hts : Ordered pos ts) (htracked : Tracked σ ts)
    (hu : u ∈ valueUnits d source ts) (hsuffix : ⟨.attribute name, s⟩ :: after <:+ ts)
    (hv : v ∈ valueUnits d source after) : u.span.Separate v.span ∨ u.HoldsInEntry v := by
  obtain ⟨-, (hforward : s.start < s.stop), hafter⟩ := hts.of_suffix hsuffix
  -- wherever the later attribute stands, its units are behind its name
  have hvstart : s.stop < v.span.start := by
    obtain ⟨els, stop, rest, -, hblock⟩ := passes_value d source hafter
    exact (hblock.inside v hv).1
  rcases valueUnits_cases d source ts with hnone | ⟨a, s', rest, rfl, ha, hunits⟩ |
    ⟨a, o, inside, e, rfl, ha, ho, hread, hunits⟩
  · rw [hnone] at hu
    exact absurd hu (by simp)
  · rw [hunits] at hu
    have hstop := ((block_stringUnits .plainString false).inside u hu).2.2
    have hrest := suffix_of_not_attribute (suffix_of_not_attribute hsuffix (by simp [ha])) (by simp)
    have hstart := hts.2.2.2.2.start_le (hrest.mem List.mem_cons_self)
    exact .inl (.inl (by dsimp only at hstart; omega))
  · rw [hunits] at hu
    have hinside := suffix_of_not_attribute (suffix_of_not_attribute hsuffix (by simp [ha]))
      (by simp [ho])
    have hordered := hts.2.2.2.2
    obtain ⟨els, mid, stop, rest, ⟨c, hpass, hc, -⟩, hblock⟩ := closes_container hread hordered
    obtain ⟨-, ⟨hcstart, hcforward, hcrest⟩, -⟩ := hpass.bounds hordered
    have hne : (⟨.attribute name, s⟩ : Lexeme) ≠ c := fun heq => absurd (heq ▸ hc) (by simp)
    rcases hpass.inside_or_behind hinside hne with hin | hrest
    · obtain ⟨σ', hmoves, htracked'⟩ := htracked
      obtain ⟨el, hel, helstart, hends⟩ := hpass.attribute_in_element hordered
        (htracked'.of_opening ho) (by simp) hinside hin
      have hvinside := inside_of_endsElement hends hafter hv
      exact (hblock source).separate_or_holdsInEntry hu (.inr ⟨el, hel, by omega, hvinside.2⟩)
    · have hstart := hcrest.start_le (hrest.mem List.mem_cons_self)
      exact (hblock source).separate_or_holdsInEntry hu (.inl (by dsimp only at hstart; omega))

/-- **Two units of a script overlap only where one is in the value of an entry of the
other.** -/
theorem pairwise_attributeUnitsIn {pos : Nat} {σ : List Delimiter} {ts : Lexemes}
    (hts : Ordered pos ts) (htracked : Tracked σ ts) :
    (attributeUnitsIn d names source ts).Pairwise
      fun u v => u.span.Separate v.span ∨ u.HoldsInEntry v := by
  induction ts generalizing pos σ with
  | nil => exact .nil
  | cons t ts ih =>
      obtain ⟨-, -, hrest⟩ := hts
      obtain ⟨σ', -, htracked'⟩ := htracked
      have hown : ∀ us, (us = valueUnits d source ts ∨ us = []) →
          (us ++ attributeUnitsIn d names source ts).Pairwise
            fun u v => u.span.Separate v.span ∨ u.HoldsInEntry v := by
        rintro us (rfl | rfl)
        · refine List.pairwise_append.mpr ⟨?_, ih hrest htracked', fun u hu v hv => ?_⟩
          · obtain ⟨els, stop, rest, -, hblock⟩ := passes_value d source hrest
            exact hblock.ordered.imp fun h => .inl (.inl h)
          · obtain ⟨name, s, after, hsuffix, hv'⟩ := attribute_of_mem hv
            exact separate_or_holdsInEntry hrest htracked' hu hsuffix hv'
        · exact ih hrest htracked'
      rw [attributeUnitsIn]
      refine hown _ ?_
      split
      · split
        · exact .inl rfl
        · exact .inr rfl
      · exact .inr rfl

theorem pairwise_attributeUnits (d : Dialect) (names : List String) (source : Text) :
    (attributeUnits d names source).Pairwise
      fun u v => u.span.Separate v.span ∨ u.HoldsInEntry v :=
  pairwise_attributeUnitsIn (ordered_lex d source).1 (tracked_lex d source)

/-! ## Programs -/

/-- The units of a program lie in it, in order. -/
theorem block_programUnits (d : Dialect) (source : Text) :
    ∃ els, Block 0 (Text.size source) (programUnits d source) els := by
  unfold programUnits readProgram
  obtain ⟨hordered, hsize⟩ := ordered_lex d source
  cases hread : readSequence d (fuelFor (lex d source)) (lex d source) with
  | none => exact ⟨[], .nil _ _⟩
  | some result =>
      obtain ⟨e, rest⟩ := result
      obtain ⟨els, stop, hpass, hexpr⟩ := (readers d _).sequence hread hordered
      have hstop := hpass.stop_le (Nat.zero_le _) hsize
      have hblock := (hexpr.units source .plainString).mono hexpr.start
        (Nat.le_trans hexpr.stop hstop)
      simp only [Option.bind_eq_bind, Option.bind_some]
      split
      · exact ⟨_, hblock⟩
      · exact ⟨[], .nil _ _⟩

end Script

end ClassSort
