import Mathlib.Data.List.Forall2
import ClassSort.Proofs.DisjointUnits
import ClassSort.Proofs.MarkupLayout
import ClassSort.Proofs.WordSeams

/-!
# Sorting the class lists of a document

Sorting changes the length of values, so the second run reads a different text at
different offsets. With a `Layout` at hand that does not matter: the first run gives the
text of the layout with its class lists sorted, and the attributes of that text are again
those of the layout. So **the units of the output are those of the source, each sorted**,
and the second run changes nothing because sorting a sorted list changes nothing.

The condition on the source is what keeps the layout. A class list without quotes must not
hold a blank. (It can hold blanks outside of ASCII, which do not end it.) And **no class of a
quoted list may begin with `<!--`**: at the front of the value it would begin a comment, and
the value would go on behind its quote, up to the end of that comment.
-/

namespace ClassSort

namespace ClassList

theorem sort_eq_nil {r : Ranking} {ends : FixedEnds} {value : Text} :
    sort r ends value = [] ↔ value = [] := by
  constructor
  · intro h
    cases hmark : Text.includes interpolationMark value with
    | true =>
        rw [sort_of_mark hmark] at h
        exact h
    | false =>
        obtain ⟨head, free, tail, hparts⟩ := exists_partitioned ends (divide value).pieces
        have hdivide := divide_sort (r := r) hmark hparts
        rw [h] at hdivide
        injection hdivide with hleading hpieces
        have hlen := congrArg List.length hpieces.symm
        simp only [List.length_append, length_sortFree, List.length_nil] at hlen
        have hnone : (divide value).pieces = [] := by
          rw [hparts.eq, ← List.length_eq_zero_iff]
          simp only [List.length_append]
          exact hlen
        rw [← text_divide value, Division.text, ← hleading, hnone]
        rfl
  · rintro rfl
    have hconserves := (sort_conserves r ends []).size
    exact Text.eq_nil_of_size_eq_zero (Nat.le_zero.mp hconserves)

/-- A list of one class is in order. -/
theorem sort_of_no_blank {r : Ranking} {value : Text} (h : ∀ c ∈ value, Text.isBlank c = false) :
    sort r {} value = value := by
  by_cases hnil : value = []
  · subst hnil
    exact sort_eq_nil.mpr rfl
  · have hword : IsWord value := ⟨hnil, h⟩
    have hparted : Parted [⟨value, []⟩] := ⟨hword, isGap_nil, by simp, trivial⟩
    have hdivide : divide value = ⟨[], [⟨value, []⟩]⟩ := by
      have := divide_pieces hparted
      simpa using this
    cases hmark : Text.includes interpolationMark value with
    | true => exact sort_of_mark hmark
    | false =>
        have hparts : Partitioned {} (divide value).pieces [] [⟨value, []⟩] [] := by
          rw [hdivide]
          exact ⟨rfl, rfl, rfl⟩
        have hone : sortBy r [value] = [value] := sortBy_of_ordered (by simp)
        rw [sort_eq_text hmark hparts, hdivide]
        simp [Division.text, sortFree, hone, respace, lastGap]

theorem isBlank_of_isAsciiBlank {c : Char} (h : Text.isAsciiBlank c = true) :
    Text.isBlank c = true := by
  simp only [Text.isAsciiBlank, Bool.or_eq_true, beq_iff_eq, Bool.and_eq_true,
    decide_eq_true_eq] at h
  rcases h with rfl | ⟨hlo, hhi⟩
  · decide
  · simp [Text.isBlank, Text.blankRanges, hlo, hhi]

/-- Sorting brings in no character but blanks. -/
theorem notMem_sort {r : Ranking} {ends : FixedEnds} {value : Text} {q : Char}
    (hq : Text.isBlank q = false) (h : q ∉ value) : q ∉ sort r ends value := by
  intro hmem
  have hink : q ∈ (sort r ends value).ink := List.mem_filter.mpr ⟨hmem, by simp [hq]⟩
  have hold := (sort_conserves r ends value).ink.mem_iff.mp hink
  exact h (List.mem_of_mem_filter hold)

/-- **A comment ends in a list if it ends in one of its words.** -/
theorem closesComment_iff (value : Text) :
    Markup.closesComment 0 value = true ↔ ∃ w ∈ words value, Markup.closesComment 0 w = true := by
  induction hn : value.length using Nat.strongRecOn generalizing value with
  | ind n ih =>
      have hfirst : (∃ w ∈ solo (firstRun value), Markup.closesComment 0 w = true) ↔
          Markup.closesComment 0 (firstRun value) = true := by
        unfold solo
        split
        · rename_i hnil
          simp [hnil, Markup.closesComment]
        · simp
      have hwords := words_eq_firstRun value
      have hsplit := firstRun_append_back value
      rcases back_cases value with hnil | ⟨c, cs, hcons, hc⟩
      · rw [hnil, List.append_nil] at hsplit
        have hnone : words [] = [] := rfl
        rw [hwords, hnil, hnone, List.append_nil, hfirst, hsplit]
      · -- a blank is not part of the end of a comment
        have hdash : c ≠ '-' := by
          rintro rfl
          exact absurd hc (by decide)
        have hend : c ≠ '>' := by
          rintro rfl
          exact absurd hc (by decide)
        rw [hcons] at hwords hsplit
        have hlt : cs.length < n := by
          rw [← hn, ← hsplit, List.length_append, List.length_cons]
          omega
        have hcut := Markup.closesComment_across hdash hend (firstRun value) cs 0
        rw [hsplit] at hcut
        rw [hcut, hwords, words_blank hc, Bool.or_eq_true, ih _ hlt cs rfl, ← hfirst]
        simp only [List.mem_append, or_and_right, exists_or]

/-- What may be a comment at the front of a list begins a word. -/
theorem exists_word_of_beginsComment {value : Text} (h : Markup.beginsComment value = true) :
    ∃ w ∈ words value, "<!--".toList <+: w := by
  induction value with
  | nil => exact absurd h (by decide)
  | cons c value ih =>
      by_cases hc : Text.isAsciiBlank c = true
      · rw [Markup.beginsComment_blank hc] at h
        rw [words_blank (isBlank_of_isAsciiBlank hc)]
        exact ih h
      · unfold Markup.beginsComment at h
        rw [List.dropWhile_cons_of_neg hc] at h
        obtain ⟨rest, hrest⟩ := List.isPrefixOf_iff_prefix.mp h
        have hrun : firstRun (c :: value) = "<!--".toList ++ firstRun rest := by
          rw [← hrest]
          rfl
        rw [words_eq_firstRun, hrun]
        exact ⟨_, List.mem_append_left _ List.mem_cons_self, List.prefix_append _ _⟩

theorem tokens_sort_perm (r : Ranking) (ends : FixedEnds) (value : Text) :
    ((tokens (sort r ends value)).map (·.text)).Perm ((tokens value).map (·.text)) := by
  rw [map_text_tokens, map_text_tokens]
  exact words_sort_perm r ends value

end ClassList

namespace Markup

/-! ## Attributes and their units -/

/-- Whether an attribute of this name holds a class list. -/
def listed (names : List String) (name : Text) : Bool := names.any fun n => sameName n.toList name

/-- The value of an attribute, sorted if it is a class list. -/
def sortListed (names : List String) (r : Ranking) (name value : Text) : Text :=
  if listed names name then ClassList.sort r {} value else value

theorem sortListed_sortListed (names : List String) (r : Ranking) (name value : Text) :
    sortListed names r name (sortListed names r name value) = sortListed names r name value := by
  unfold sortListed
  split
  · exact ClassList.sort_sort r {} value
  · rfl

theorem sortListed_eq_nil {names : List String} {r : Ranking} {name value : Text} :
    sortListed names r name value = [] ↔ value = [] := by
  unfold sortListed
  split
  · exact ClassList.sort_eq_nil
  · exact Iff.rfl

/-- The class lists among some attributes. -/
def unitsOf (names : List String) (as : List Attribute) : List ClassUnit :=
  (as.filter fun a => listed names a.name && !a.value.isEmpty).map
    fun a => .list ⟨a.value, .plainString, .attributeValue, {}⟩

theorem attributeUnits_eq (names : List String) (source : Text) :
    attributeUnits names source = unitsOf names (attributes source) := rfl

theorem isEmpty_of_slice? {source v : Text} {s : Span} (h : Text.slice? source s = some v) :
    s.isEmpty = true ↔ v = [] := by
  have hstop := (Text.bounds_of_slice? h).1
  simp only [Span.isEmpty, decide_eq_true_eq]
  constructor
  · intro hle
    exact Text.eq_nil_of_size_eq_zero (by omega)
  · rintro rfl
    simp only [Text.size_nil] at hstop
    omega

/-- A listed attribute with a value is a unit, any other attribute is none. -/
theorem unitsOf_cons (names : List String) {source v : Text} {a : Attribute}
    (h : Text.slice? source a.value = some v) (as : List Attribute) :
    unitsOf names (a :: as) =
      if listed names a.name = true ∧ v ≠ [] then
        .list ⟨a.value, .plainString, .attributeValue, {}⟩ :: unitsOf names as
      else unitsOf names as := by
  have hempty := isEmpty_of_slice? h
  unfold unitsOf
  rw [List.filter_cons]
  by_cases hv : v = []
  · simp [hv, hempty.mpr hv]
  · have hfull : a.value.isEmpty = false := by
      rw [Bool.eq_false_iff]
      exact fun he => hv (hempty.mp he)
    by_cases hname : listed names a.name = true <;> simp [hv, hfull, hname]

/-- One attribute gives the edit that sorts it, unless it is in order. -/
theorem edits_unitsOf_cons (names : List String) (r : Ranking) {source v : Text} {a : Attribute}
    (h : Text.slice? source a.value = some v) (as : List Attribute) :
    ClassUnit.edits source r (unitsOf names (a :: as)) =
      (Edit.unlessSame a.value v (sortListed names r a.name v)).toList ++
        ClassUnit.edits source r (unitsOf names as) := by
  rw [unitsOf_cons names h]
  split
  · rename_i hunit
    have hedit : ClassUnit.edit? source r (.list ⟨a.value, .plainString, .attributeValue, {}⟩) =
        Edit.unlessSame a.value v (ClassList.sort r {} v) := by
      show ClassSpan.edit? source r _ = _
      unfold ClassSpan.edit?
      rw [h]
      rfl
    unfold ClassUnit.edits sortListed
    rw [List.filterMap_cons, hedit, if_pos hunit.1]
    cases Edit.unlessSame a.value v (ClassList.sort r {} v) <;> rfl
  · rename_i hunit
    have hsame : sortListed names r a.name v = v := by
      by_cases hv : v = []
      · subst hv
        exact sortListed_eq_nil.mpr rfl
      · have hname : ¬ listed names a.name = true := fun hname => hunit ⟨hname, hv⟩
        unfold sortListed
        rw [if_neg hname]
    rw [hsame]
    simp [Edit.unlessSame]

/-! ## The pass over a layout -/

/-- One range ends before the other begins. -/
def Precedes (s t : Span) : Prop := s.start ≤ s.stop ∧ s.stop ≤ t.start

/-- A layout as it is has the attributes of its document. -/
theorem attributes_of_layout {L : Layout} (h : L.Of .text L.text) :
    attributes L.text = L.attributes 0 := by
  have hscan := h.scan (fun _ v => v) (fun f _ => .inl rfl) 0
  rwa [L.rewrite_id] at hscan

/-- The attributes of some fields follow each other. -/
theorem pairwise_fieldsAttributes (pos : Nat) (fs : List Field) :
    (∀ a ∈ fieldsAttributes pos fs, pos ≤ a.value.start) ∧
      (fieldsAttributes pos fs).Pairwise fun a b => Precedes a.value b.value := by
  induction fs generalizing pos with
  | nil => exact ⟨by simp [fieldsAttributes], .nil⟩
  | cons f fs ih =>
      obtain ⟨hstart, hpairs⟩ := ih (pos + f.before.size + f.value.size)
      constructor
      · intro a ha
        rcases List.mem_cons.mp ha with rfl | ha
        · exact Nat.le_add_right pos f.before.size
        · have := hstart a ha
          omega
      · exact .cons (fun b hb => ⟨Nat.le_add_right _ _, hstart b hb⟩) hpairs

/-- **The attributes of a document follow each other.** -/
theorem pairwise_attributes (source : Text) :
    (attributes source).Pairwise fun a b => Precedes a.value b.value := by
  obtain ⟨L, hL, -⟩ := exists_layout_of_document source
  obtain rfl := hL.text
  rw [attributes_of_layout hL]
  exact (pairwise_fieldsAttributes 0 L.fields).2

theorem pairwise_unitsOf {names : List String} {as : List Attribute} {R : Span → Span → Prop}
    (h : as.Pairwise fun a b => R a.value b.value) :
    (unitsOf names as).Pairwise fun u v => R u.span v.span := by
  unfold unitsOf
  rw [List.pairwise_map]
  exact h.sublist List.filter_sublist

/-- **The edits of a layout sort its class lists.** The cursor stands behind `pre`, and
`kept` is what has been passed since. -/
theorem splice_fields (names : List String) (r : Ranking) (tail : Text) {source : Text}
    (fs : List Field) : ∀ pre kept : Text, source = pre ++ kept ++ fieldsText tail fs →
    Edit.splice source pre.size
        (ClassUnit.edits source r (unitsOf names (fieldsAttributes (pre ++ kept).size fs))) =
      some (kept ++ fieldsText tail (fs.map (·.rewrite (sortListed names r)))) := by
  induction fs with
  | nil =>
      intro pre kept hsource
      show Text.drop? source pre.size = _
      refine Text.drop?_eq_some.mpr ⟨pre, ?_, rfl⟩
      rw [hsource, List.append_assoc]
      rfl
  | cons f fs ih =>
      intro pre kept hsource
      have hsource' : source =
          (pre ++ (kept ++ f.before)) ++ f.value ++ fieldsText tail fs := by
        rw [hsource]
        simp [fieldsText]
      have hstart : (pre ++ kept).size + f.before.size = (pre ++ (kept ++ f.before)).size := by
        simp [Nat.add_assoc]
      have hvalue : Text.slice? source ⟨(pre ++ kept).size + f.before.size,
          (pre ++ kept).size + f.before.size + f.value.size⟩ = some f.value := by
        rw [hstart, hsource']
        exact Text.slice?_append _ _ _
      rw [fieldsAttributes, edits_unitsOf_cons names r hvalue]
      by_cases hsame : sortListed names r f.name f.value = f.value
      · -- nothing to do here, so the value is passed like the text in front of it
        have hrest := ih pre (kept ++ f.before ++ f.value) (by rw [hsource']; simp)
        have hpos : (pre ++ (kept ++ f.before ++ f.value)).size =
            (pre ++ kept).size + f.before.size + f.value.size := by
          simp only [Text.size_append]
          omega
        rw [hpos] at hrest
        rw [hsame, Edit.unlessSame, if_pos rfl, Option.toList_none, List.nil_append, hrest]
        simp [fieldsText, Field.rewrite, hsame]
      · have hrest := ih (pre ++ (kept ++ f.before) ++ f.value) [] (by rw [hsource']; simp)
        have hpos : (pre ++ (kept ++ f.before) ++ f.value).size =
            (pre ++ kept).size + f.before.size + f.value.size := by
          simp only [Text.size_append]
          omega
        rw [List.append_nil, hpos] at hrest
        have hkept : Text.slice? source ⟨pre.size, (pre ++ kept).size + f.before.size⟩ =
            some (kept ++ f.before) := by
          refine Text.slice?_eq_some.mpr ⟨pre, f.value ++ fieldsText tail fs, ?_, rfl, ?_⟩
          · rw [hsource']
            simp
          · simp only [Text.size_append]
            omega
        have hfits : (pre ++ kept).size + f.before.size + f.value.size ≤ source.size :=
          (Text.bounds_of_slice? hvalue).2
        have hmade : ¬ (((pre ++ kept).size + f.before.size < pre.size ||
            source.size < (pre ++ kept).size + f.before.size + f.value.size) = true) := by
          simp only [Text.size_append] at hfits ⊢
          simp only [Bool.or_eq_true, decide_eq_true_eq]
          omega
        rw [Edit.unlessSame, if_neg hsame, Option.toList_some, List.singleton_append, Edit.splice,
          if_neg hmade, hkept, hrest]
        simp [fieldsText, Field.rewrite]

/-! ## Quoted values keep the layout -/

/-- The value of an attribute stands behind a quote. -/
def Quoted (source : Text) (a : Attribute) : Prop :=
  ∃ q, (q = '"' ∨ q = '\'') ∧ Text.slice? source ⟨a.value.start - 1, a.value.start⟩ = some [q]

/-- A field is an attribute of its text. -/
theorem attribute_of_mem {tail source : Text} {f : Field} {fs : List Field} (hf : f ∈ fs) :
    ∀ pre, source = pre ++ fieldsText tail fs →
      ∃ before after, source = before ++ f.before ++ f.value ++ after ∧
        ⟨f.name, ⟨(before ++ f.before).size, (before ++ f.before).size + f.value.size⟩⟩ ∈
          fieldsAttributes pre.size fs := by
  induction fs with
  | nil => exact absurd hf (by simp)
  | cons f' fs ih =>
      intro pre hsource
      rcases List.mem_cons.mp hf with rfl | hf
      · refine ⟨pre, fieldsText tail fs, by rw [hsource]; simp [fieldsText], ?_⟩
        rw [fieldsAttributes, Text.size_append]
        exact List.mem_cons_self
      · obtain ⟨before, after, hcut, hmem⟩ :=
          ih hf (pre ++ f'.before ++ f'.value) (by rw [hsource]; simp [fieldsText])
        refine ⟨before, after, hcut, ?_⟩
        rw [Text.size_append, Text.size_append] at hmem
        exact List.mem_cons_of_mem _ hmem

theorem utf8Size_of_isAsciiBlank {c : Char} (h : Text.isAsciiBlank c = true) :
    c.utf8Size = 1 := by
  simp only [Text.isAsciiBlank, Bool.or_eq_true, beq_iff_eq, Bool.and_eq_true,
    decide_eq_true_eq] at h
  rcases h with rfl | ⟨-, hle⟩
  · rfl
  · have hval : c.val ≤ 0x7F := UInt32.le_iff_toNat_le.mpr (Nat.le_trans hle (by decide))
    exact if_pos hval

/-- A value behind a quote is a quoted one, and holds that quote only in a comment. -/
theorem Field.Placed.quote_of_slice? {f : Field} (h : f.Placed) {source before after : Text}
    (hsource : source = before ++ f.before ++ f.value ++ after) {q : Char}
    (hq : q = '"' ∨ q = '\'')
    (hslice : Text.slice? source ⟨(before ++ f.before).size - 1, (before ++ f.before).size⟩ =
      some [q]) :
    f.quote = some q ∧ (q ∈ f.value → beginsComment f.value = true) := by
  have hlast : ∀ c, f.before.getLast? = some c → c.utf8Size = 1 → c = q := by
    intro c hc hone
    obtain ⟨init, hinit⟩ := List.getLast?_eq_some_iff.mp hc
    have hcut : Text.slice? source ⟨(before ++ f.before).size - 1, (before ++ f.before).size⟩ =
        some [c] := by
      refine Text.slice?_eq_some.mpr ⟨before ++ init, f.value ++ after, ?_, ?_, ?_⟩
      · rw [hsource, hinit]
        simp
      · rw [hinit]
        simp [hone, ← Nat.add_assoc]
      · rw [hinit]
        simp [hone, ← Nat.add_assoc]
    rw [hcut] at hslice
    injection hslice with hslice
    injection hslice
  unfold Field.Placed at h
  split at h
  · rename_i q' hquote
    obtain ⟨hq', hkind, hfree⟩ := h
    have hone : q'.utf8Size = 1 := by rcases hkind with rfl | rfl <;> rfl
    have heq := hlast q' hq' hone
    subst heq
    exact ⟨hquote, hfree⟩
  · -- a bare value stands behind an equals sign, a blank or a comment
    obtain ⟨c, hc, hkind⟩ := h
    have hone : c.utf8Size = 1 := by
      rcases hkind with rfl | rfl | hblank
      · rfl
      · rfl
      · exact utf8Size_of_isAsciiBlank hblank
    have heq := hlast c hc hone
    subst heq
    rcases hq with rfl | rfl <;> exact absurd hkind (by unfold IsLeading; decide)

/-- A class list that holds no blank, or is quoted and has no class that begins like a comment. -/
def Contained (source : Text) (a : Attribute) : Prop :=
  ∃ v, Text.slice? source a.value = some v ∧
    ((∀ c ∈ v, Text.isBlank c = false) ∨
      Quoted source a ∧ ∀ t ∈ ClassList.tokens v, ¬ "<!--".toList <+: t.text)

/-- A list without classes that begin like a comment begins with none, and neither does any list of
the same words. -/
theorem beginsComment_eq_false {v v' : Text}
    (hwords : ∀ t ∈ ClassList.tokens v, ¬ "<!--".toList <+: t.text)
    (hperm : (ClassList.words v').Perm (ClassList.words v)) : beginsComment v' = false := by
  rw [Bool.eq_false_iff]
  intro hbegins
  obtain ⟨w, hw, hopen⟩ := ClassList.exists_word_of_beginsComment hbegins
  have hmem := hperm.mem_iff.mp hw
  rw [ClassList.words, ← ClassList.map_text_tokens] at hmem
  obtain ⟨t, ht, rfl⟩ := List.mem_map.mp hmem
  exact hwords t ht hopen

/-- Sorting a quoted list gives one that can take its place. -/
theorem replaces_sort (r : Ranking) {q : Char} (hq : q = '"' ∨ q = '\'') {v : Text}
    (hwords : ∀ t ∈ ClassList.tokens v, ¬ "<!--".toList <+: t.text)
    (hquote : q ∈ v → beginsComment v = true) : Replaces q v (ClassList.sort r {} v) := by
  have hperm : (ClassList.words (ClassList.sort r {} v)).Perm (ClassList.words v) :=
    ClassList.words_sort_perm r {} v
  have hink : Text.isBlank q = false := by rcases hq with rfl | rfl <;> rfl
  have hfree : q ∉ v := by
    intro hmem
    rw [beginsComment_eq_false hwords (.refl _)] at hquote
    exact absurd (hquote hmem) (by simp)
  refine ⟨ClassList.notMem_sort hink hfree, beginsComment_eq_false hwords hperm, ?_⟩
  rw [ClassList.closesComment_iff, ClassList.closesComment_iff]
  rintro ⟨w, hw, hcloses⟩
  exact ⟨w, hperm.mem_iff.mp hw, hcloses⟩

/-- Sorting contained class lists keeps the layout. -/
theorem admits_sortListed {names : List String} {r : Ranking} {L : Layout}
    (hplaced : ∀ f ∈ L.fields, f.Placed)
    (hlists : ∀ a ∈ L.attributes 0, listed names a.name = true → Contained L.text a) :
    L.Admits (sortListed names r) := by
  intro f hf
  by_cases hname : listed names f.name = true
  · have hstart : L.text = [] ++ fieldsText L.tail L.fields := rfl
    obtain ⟨before, after, hcut, hmem⟩ := attribute_of_mem hf [] hstart
    unfold sortListed
    rw [if_pos hname]
    obtain ⟨v, hv, hlist⟩ := hlists _ hmem hname
    have hvalue : v = f.value := by
      rw [hcut, Text.slice?_append] at hv
      injection hv with hv
      exact hv.symm
    subst hvalue
    rcases hlist with hblank | ⟨⟨q, hq, hslice⟩, hwords⟩
    · exact .inl (ClassList.sort_of_no_blank hblank)
    · obtain ⟨hquote, hfree⟩ := (hplaced f hf).quote_of_slice? hcut hq hslice
      exact .inr ⟨q, hquote, replaces_sort r hq hwords hfree⟩
  · unfold sortListed
    rw [if_neg hname]
    exact .inl rfl

/-! ## The units of the output -/

/-- Two units, each in its own source, hold the same classes in some order. -/
def SameClasses (source out : Text) (u u' : ClassUnit) : Prop :=
  ∃ v v', Text.slice? source u.span = some v ∧ Text.slice? out u'.span = some v' ∧
    ((ClassList.tokens v').map (·.text)).Perm ((ClassList.tokens v).map (·.text))

theorem forall₂_units (names : List String) (r : Ranking) (tail : Text) {source out : Text}
    (fs : List Field) : ∀ pre pre' : Text, source = pre ++ fieldsText tail fs →
    out = pre' ++ fieldsText tail (fs.map (·.rewrite (sortListed names r))) →
    List.Forall₂ (SameClasses source out) (unitsOf names (fieldsAttributes pre.size fs))
      (unitsOf names
        (fieldsAttributes pre'.size (fs.map (·.rewrite (sortListed names r))))) := by
  induction fs with
  | nil =>
      intro pre pre' _ _
      exact .nil
  | cons f fs ih =>
      intro pre pre' hsource hout
      have hsource' : source = (pre ++ f.before) ++ f.value ++ fieldsText tail fs := by
        rw [hsource]
        simp [fieldsText]
      have hout' : out = (pre' ++ f.before) ++ sortListed names r f.name f.value ++
          fieldsText tail (fs.map (·.rewrite (sortListed names r))) := by
        rw [hout]
        simp [fieldsText, Field.rewrite]
      -- behind this value the offsets differ, so the two texts are followed separately
      have hrest := ih _ _ hsource' hout'
      have hvalue := Text.slice?_append (pre ++ f.before) f.value (fieldsText tail fs)
      have hvalue' := Text.slice?_append (pre' ++ f.before) (sortListed names r f.name f.value)
        (fieldsText tail (fs.map (·.rewrite (sortListed names r))))
      rw [← hsource'] at hvalue
      rw [← hout'] at hvalue'
      simp only [Text.size_append] at hrest hvalue hvalue'
      rw [List.map_cons, fieldsAttributes, fieldsAttributes]
      dsimp only [Field.rewrite]
      rw [unitsOf_cons names hvalue, unitsOf_cons names hvalue']
      simp only [ne_eq, sortListed_eq_nil]
      split
      · rename_i hunit
        refine .cons ⟨_, _, hvalue, hvalue', ?_⟩ hrest
        unfold sortListed
        rw [if_pos hunit.1]
        exact ClassList.tokens_sort_perm r {} f.value
      · exact hrest

end Markup

/-! ## Documents -/

namespace Parser

/-- What a parser does when there is nothing to find is a case of what it does otherwise. -/
theorem sortClasses_eq (p : Parser) (r : Ranking) (source : Text) :
    p.sortClasses r source =
      Edit.applyAll source (ClassUnit.edits source r.ofSource (p.language.units source)) := by
  unfold sortClasses
  split
  · rename_i hnone
    rw [hnone]
    exact (Text.drop?_eq_some.mpr ⟨[], rfl, rfl⟩).symm
  · rfl

variable {p : Parser} {L : Markup.Layout}

open Markup

theorem pairwise_units_of_layout (names : List String) (L : Layout) :
    (unitsOf names (L.attributes 0)).Pairwise fun u v => Precedes u.span v.span :=
  pairwise_unitsOf (pairwise_fieldsAttributes 0 L.fields).2

theorem units_html (hp : p.language = .markup .html) (source : Text) :
    p.language.units source = ClassUnit.inOrder (unitsOf ["class"] (attributes source)) := by
  rw [hp, Language.units]
  show ClassUnit.inOrder (attributeUnits ["class"] source ++ []) = _
  rw [List.append_nil, attributeUnits_eq]

/-- The units of a document whose attributes are those of a layout. -/
theorem units_of_layout (hp : p.language = .markup .html)
    (h : attributes L.text = L.attributes 0) :
    p.language.units L.text = unitsOf ["class"] (L.attributes 0) := by
  rw [units_html hp, h]
  refine ClassUnit.inOrder_of_pairwise ((pairwise_units_of_layout ["class"] L).imp ?_)
  intro u v huv
  exact Nat.le_trans huv.1 huv.2

/-- **Sorting a document sorts the class lists of its layout.** -/
theorem sortClasses_of_layout (hp : p.language = .markup .html) (r : Ranking)
    (h : attributes L.text = L.attributes 0) :
    p.sortClasses r L.text = some (L.rewrite (sortListed ["class"] r.ofSource)).text := by
  have hforward : (ClassUnit.edits L.text r.ofSource (unitsOf ["class"] (L.attributes 0))).Pairwise
      fun a b => a.span.stop ≤ b.span.start :=
    (ClassUnit.pairwise_edits (pairwise_units_of_layout ["class"] L)).imp fun hab => hab.2
  have hsound (e : Edit) (he : e ∈ ClassUnit.edits L.text r.ofSource
      (unitsOf ["class"] (L.attributes 0))) : e.span.start ≤ e.span.stop :=
    (ClassUnit.sound_of_mem_edits he).start_le_stop
  rw [sortClasses_eq, units_of_layout hp h, Edit.applyAll, Edit.stableSort_of_follows hsound hforward]
  exact splice_fields ["class"] r.ofSource L.tail L.fields [] [] rfl

/--
**Sorting HTML once is enough.**

When every class list of a document holds no blank, or is quoted and has no class that begins
like a comment, the document can be sorted; the class lists of the output are those of the
source, in the same order and each with the same classes; and sorting the output leaves it as
it is.
-/
theorem sorted_html_is_sorted (p : Parser) (hp : p = .html ∨ p = .lwc) (r : Ranking)
    (source : Text)
    (hlists : ∀ a ∈ attributes source, sameName "class".toList a.name = true →
      Contained source a) :
    ∃ out, p.sortClasses r source = some out ∧
      List.Forall₂ (SameClasses source out) (p.language.units source) (p.language.units out) ∧
      p.sortClasses r out = some out := by
  have hlanguage : p.language = .markup .html := by rcases hp with rfl | rfl <;> rfl
  obtain ⟨L, hL, hplaced⟩ := exists_layout_of_document source
  obtain rfl := hL.text
  have hsame := attributes_of_layout hL
  have hadmits : L.Admits (sortListed ["class"] r.ofSource) := by
    refine admits_sortListed hplaced fun a ha hname => hlists a (hsame ▸ ha) ?_
    simpa [listed] using hname
  have hsame' : attributes (L.rewrite (sortListed ["class"] r.ofSource)).text =
      (L.rewrite (sortListed ["class"] r.ofSource)).attributes 0 := hL.scan _ hadmits 0
  refine ⟨_, sortClasses_of_layout hlanguage r hsame, ?_, ?_⟩
  · rw [units_of_layout hlanguage hsame, units_of_layout hlanguage hsame']
    exact forall₂_units ["class"] r.ofSource L.tail L.fields [] [] rfl rfl
  · rw [sortClasses_of_layout hlanguage r hsame',
      Layout.rewrite_rewrite (sortListed_sortListed ["class"] r.ofSource)]

/-- A list in quotes behind a value with a comment, and a list without quotes behind a comment. -/
def mixedDocument : Text :=
  "<p title='<!--'-->' class='b  a'><i CLASS=<!-- ' -->x>".toList

theorem sorted_html_is_sorted_mixed :
    attributes mixedDocument =
      [⟨"title".toList, ⟨10, 18⟩⟩, ⟨"class".toList, ⟨27, 31⟩⟩, ⟨"CLASS".toList, ⟨52, 53⟩⟩] ∧
    ∃ out, Parser.html.sortClasses (Ranking.ofNames ["a".toList, "b".toList]) mixedDocument =
        some out ∧
      List.Forall₂ (SameClasses mixedDocument out) (Parser.html.language.units mixedDocument)
        (Parser.html.language.units out) ∧
      Parser.html.sortClasses (Ranking.ofNames ["a".toList, "b".toList]) out = some out := by
  have hattributes : attributes mixedDocument =
      [⟨"title".toList, ⟨10, 18⟩⟩, ⟨"class".toList, ⟨27, 31⟩⟩, ⟨"CLASS".toList, ⟨52, 53⟩⟩] := by decide
  refine ⟨hattributes, sorted_html_is_sorted .html (.inl rfl) _ _ fun a ha hname => ?_⟩
  rw [hattributes] at ha
  simp only [List.mem_cons, List.not_mem_nil, or_false] at ha
  rcases ha with rfl | rfl | rfl
  · exact absurd hname (by decide)
  · exact ⟨"b  a".toList, by decide, .inr ⟨⟨'\'', .inr rfl, by decide⟩, by decide⟩⟩
  · exact ⟨['x'], by decide, .inl (List.forall_mem_singleton.mpr (by decide))⟩

/-- A class that begins like a comment, and the end of one in the attribute behind it. -/
def openDocument : Text := "<p class=\"p-4 <!-- flex\" title=\"-->\"></p>".toList

def swallowedDocument : Text := "<p class=\"<!-- flex p-4\" title=\"-->\"></p>".toList

/-- **A class that begins like a comment swallows what is behind its list.** Sorting moves it to the
front, where it begins a comment, and the list goes on up to the end of that comment. So the output
has other classes than the source, and sorting it changes it again. -/
theorem leading_comment_swallows_attribute :
    attributes openDocument = [⟨"class".toList, ⟨10, 23⟩⟩, ⟨"title".toList, ⟨32, 35⟩⟩] ∧
    (∀ a ∈ attributes openDocument, Quoted openDocument a) ∧
    Parser.html.sortClasses (Ranking.ofNames ["flex".toList, "p-4".toList]) openDocument =
      some swallowedDocument ∧
    attributes swallowedDocument = [⟨"class".toList, ⟨10, 35⟩⟩] ∧
    Parser.html.sortClasses (Ranking.ofNames ["flex".toList, "p-4".toList]) swallowedDocument =
      some "<p class=\"<!-- title=\"--> flex p-4\"\"></p>".toList := by
  have hattributes : attributes openDocument =
      [⟨"class".toList, ⟨10, 23⟩⟩, ⟨"title".toList, ⟨32, 35⟩⟩] := by decide
  refine ⟨hattributes, fun a ha => ⟨'"', .inl rfl, ?_⟩, by decide +kernel, by decide,
    by decide +kernel⟩
  rw [hattributes] at ha
  rcases List.mem_pair.mp ha with rfl | rfl
  · decide
  · decide

end Parser

end ClassSort
