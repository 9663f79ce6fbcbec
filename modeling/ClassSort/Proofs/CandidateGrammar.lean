import ClassSort.Proofs.TopLevelSplit

/-!
# The grammar of classes

A class is written as its variants, each with the separator behind it, and a utility spelled
`[!][-][prefix][-]base[!]`. Reading takes the marks off in a fixed order: the important mark in
front, the one at the end, the sign, the prefix, and the sign behind the prefix if there was none in
front of it. **Reading gives back what was written**, provided that nothing of what is written can
be taken for a mark or a separator, and **whatever is read was written in one of the spellings**,
with no proviso at all.

The utility is read in two steps, which `parseUtility?_eq` takes apart: the important marks on both
ends, and the sign and the prefix of what is left.
-/

namespace ClassSort.Candidate

/-! ## Marks -/

/-- A mark, or nothing. -/
def mark (written : Bool) (c : Char) : Text := if written then [c] else []

theorem after?_eq_some {pre cs rest : Text} : Text.after? pre cs = some rest ↔ pre ++ rest = cs :=
  List.isPrefixOf?_eq_some_iff_append_eq

theorem before?_eq_some {post cs rest : Text} :
    Text.before? post cs = some rest ↔ rest ++ post = cs :=
  List.isSuffixOf?_eq_some_iff_append_eq

/-- A mark that is taken off was there. -/
theorem mark_leadingMark (c : Char) (cs : Text) :
    mark (leadingMark c cs).2 c ++ (leadingMark c cs).1 = cs := by
  unfold leadingMark
  split
  · rename_i rest hrest
    exact after?_eq_some.mp hrest
  · rfl

theorem trailingMark_mark (c : Char) (cs : Text) :
    (trailingMark c cs).1 ++ mark (trailingMark c cs).2 c = cs := by
  unfold trailingMark
  split
  · rename_i rest hrest
    exact before?_eq_some.mp hrest
  · exact List.append_nil cs

/-- A mark that was written is taken off, and no other. -/
theorem leadingMark_mark {c : Char} {cs : Text} (h : cs.head? ≠ some c) (written : Bool) :
    leadingMark c (mark written c ++ cs) = (cs, written) := by
  cases written with
  | true =>
      have hsome : Text.after? [c] (mark true c ++ cs) = some cs := after?_eq_some.mpr rfl
      rw [leadingMark, hsome]
  | false =>
      have hnone : Text.after? [c] cs = none := by
        rw [Option.eq_none_iff_forall_ne_some]
        intro rest hrest
        rw [after?_eq_some] at hrest
        rw [← hrest] at h
        exact h rfl
      rw [mark, if_neg Bool.false_ne_true, List.nil_append, leadingMark, hnone]

theorem trailingMark_append_mark {c : Char} {cs : Text} (h : cs.getLast? ≠ some c)
    (written : Bool) : trailingMark c (cs ++ mark written c) = (cs, written) := by
  cases written with
  | true =>
      have hsome : Text.before? [c] (cs ++ mark true c) = some cs := before?_eq_some.mpr rfl
      rw [trailingMark, hsome]
  | false =>
      have hnone : Text.before? [c] cs = none := by
        rw [Option.eq_none_iff_forall_ne_some]
        intro rest hrest
        rw [before?_eq_some] at hrest
        rw [← hrest, List.getLast?_concat] at h
        exact h rfl
      rw [mark, if_neg Bool.false_ne_true, List.append_nil, trailingMark, hnone]

/-! ## The sign and the prefix -/

/-- Reads the sign and the name prefix of a utility without important marks. -/
def parseSigned? (namePrefix utility : Text) : Option (Text × Bool) :=
  (if namePrefix.isEmpty then some (leadingMark '-' utility)
   else (Text.after? namePrefix (leadingMark '-' utility).1).map fun rest =>
    if (leadingMark '-' utility).2 then (rest, true) else leadingMark '-' rest).filter
      fun read => !read.1.isEmpty

/-- A utility is read from the outside in. -/
theorem parseUtility?_eq (namePrefix utility : Text) :
    parseUtility? namePrefix utility =
      (parseSigned? namePrefix (trailingMark '!' (leadingMark '!' utility).1).1).map fun read =>
        (read.1, read.2,
          (leadingMark '!' utility).2 || (trailingMark '!' (leadingMark '!' utility).1).2) := by
  -- a base must be left, whichever way it was reached
  have hend : ∀ (read : Text × Bool) (important : Bool),
      (if read.1.isEmpty = true then none else some (read.1, read.2, important)) =
        ((some read).filter fun read => !read.1.isEmpty).map fun read =>
          (read.1, read.2, important) := by
    intro read important
    by_cases hnone : read.1.isEmpty = true
    · rw [if_pos hnone, Option.filter_some_neg (by simp [hnone]), Option.map_none]
    · rw [if_neg hnone, Option.filter_some_pos (by simp [hnone]), Option.map_some]
  unfold parseUtility? parseSigned?
  dsimp only
  by_cases hempty : namePrefix.isEmpty = true
  · rw [if_pos hempty, if_pos hempty]
    exact hend _ _
  · rw [if_neg hempty, if_neg hempty]
    cases Text.after? namePrefix
        (leadingMark '-' (trailingMark '!' (leadingMark '!' utility).1).1).1 with
    | none => rfl
    | some rest =>
        rw [Option.map_some]
        by_cases hminus : (leadingMark '-' (trailingMark '!' (leadingMark '!' utility).1).1).2 = true
        · rw [if_pos hminus, ← hend]
          exact if_pos hminus
        · rw [if_neg hminus, ← hend]
          exact if_neg hminus

/-- A base with the prefix and the sign in its place. -/
def signed (namePrefix base : Text) : SignPlace → Text
  | .none => namePrefix ++ base
  | .beforePrefix => '-' :: (namePrefix ++ base)
  | .afterPrefix => namePrefix ++ '-' :: base

/-- A sign behind the prefix needs a prefix. -/
def SignPlace.Fits (namePrefix : Text) (sign : SignPlace) : Prop :=
  sign = .afterPrefix → namePrefix ≠ []

variable {namePrefix base : Text}

theorem SignPlace.fits_of_ne {sign : SignPlace} (h : sign ≠ .afterPrefix) : sign.Fits namePrefix :=
  fun heq => absurd heq h

/-- The base is read back whichever place the sign has. -/
theorem parseSigned?_signed {sign : SignPlace} (hpre : namePrefix.head? ≠ some '-')
    (hbase : base ≠ []) (hfirst : base.head? ≠ some '-') (hfits : sign.Fits namePrefix) :
    parseSigned? namePrefix (signed namePrefix base sign) = some (base, decide (sign ≠ .none)) := by
  have hkept : ∀ negative : Bool, (some (base, negative)).filter (fun read => !read.1.isEmpty) =
      some (base, negative) := by
    intro negative
    exact Option.filter_some_pos (by simpa using hbase)
  cases namePrefix with
  | nil =>
      have hsigned : ∃ negative, signed [] base sign = mark negative '-' ++ base ∧
          negative = decide (sign ≠ .none) := by
        cases sign with
        | none => exact ⟨false, rfl, rfl⟩
        | beforePrefix => exact ⟨true, rfl, rfl⟩
        | afterPrefix => exact absurd rfl (hfits rfl)
      obtain ⟨negative, heq, rfl⟩ := hsigned
      rw [parseSigned?, if_pos List.isEmpty_nil, heq, leadingMark_mark hfirst]
      exact hkept _
  | cons c cs =>
      -- the sign in front is taken off, then the prefix, then the sign behind it
      have hread : ∀ front back, parseSigned? (c :: cs)
          (mark front '-' ++ ((c :: cs) ++ (mark back '-' ++ base))) =
            (some (if front then (mark back '-' ++ base, true) else (base, back))).filter
              fun read => !read.1.isEmpty := by
        intro front back
        have hhead : ((c :: cs) ++ (mark back '-' ++ base)).head? ≠ some '-' := hpre
        rw [parseSigned?, if_neg (by simp), leadingMark_mark hhead,
          after?_eq_some.mpr rfl, Option.map_some, leadingMark_mark hfirst]
      cases sign with
      | none => exact (hread false false).trans (hkept _)
      | beforePrefix => exact (hread true false).trans (hkept _)
      | afterPrefix => exact (hread false true).trans (hkept _)

/-- What is read had its sign in one of the places. -/
theorem signed_of_parseSigned? {utility : Text} {negative : Bool}
    (h : parseSigned? namePrefix utility = some (base, negative)) :
    base ≠ [] ∧ ∃ sign : SignPlace, sign.Fits namePrefix ∧
      utility = signed namePrefix base sign ∧ negative = decide (sign ≠ .none) := by
  rw [parseSigned?, Option.filter_eq_some_iff] at h
  obtain ⟨hread, hne⟩ := h
  refine ⟨by simpa using hne, ?_⟩
  have hfront := mark_leadingMark '-' utility
  split at hread
  · rename_i hempty
    obtain rfl := List.isEmpty_iff.mp hempty
    rw [Option.some.inj hread] at hfront
    cases negative with
    | true => exact ⟨.beforePrefix, SignPlace.fits_of_ne (by decide), hfront.symm, rfl⟩
    | false => exact ⟨.none, SignPlace.fits_of_ne (by decide), hfront.symm, rfl⟩
  · rename_i hpre
    obtain ⟨rest, hrest, heq⟩ := Option.map_eq_some_iff.mp hread
    rw [after?_eq_some] at hrest
    rw [← hrest] at hfront
    split at heq
    · rename_i hminus
      obtain ⟨rfl, rfl⟩ := Prod.mk.inj heq
      rw [hminus] at hfront
      exact ⟨.beforePrefix, SignPlace.fits_of_ne (by decide), hfront.symm, rfl⟩
    · rename_i hminus
      rw [Bool.not_eq_true] at hminus
      rw [hminus] at hfront
      have hback := mark_leadingMark '-' rest
      rw [heq] at hback
      rw [← hback] at hfront
      cases negative with
      | true => exact ⟨.afterPrefix, fun _ => by simpa using hpre, hfront.symm, rfl⟩
      | false => exact ⟨.none, SignPlace.fits_of_ne (by decide), hfront.symm, rfl⟩

/-! ## Important marks -/

theorem parseSigned?_nil (namePrefix : Text) : parseSigned? namePrefix [] = none := by
  rw [Option.eq_none_iff_forall_ne_some]
  rintro ⟨base, negative⟩ h
  obtain ⟨hne, sign, -, heq, -⟩ := signed_of_parseSigned? h
  have hlen := congrArg List.length heq
  have hpos := List.length_pos_of_ne_nil hne
  cases sign <;>
    simp only [signed, List.length_nil, List.length_append, List.length_cons] at hlen <;> omega

/-- **Important marks are taken off, on whichever side they stand.** -/
theorem parseUtility?_mark {utility : Text} (hfirst : utility.head? ≠ some '!')
    (hlast : utility.getLast? ≠ some '!') (front back : Bool) :
    parseUtility? namePrefix (mark front '!' ++ utility ++ mark back '!') =
      (parseSigned? namePrefix utility).map fun read => (read.1, read.2, front || back) := by
  rw [parseUtility?_eq]
  cases utility with
  | nil =>
      -- nothing but marks: a single one is taken off in front, wherever it was meant to stand
      have hgone : (trailingMark '!' (leadingMark '!' (mark front '!' ++ [] ++ mark back '!')).1).1 =
          [] := by
        cases front <;> cases back <;> rfl
      rw [hgone, parseSigned?_nil]
      rfl
  | cons c cs =>
      have hhead : ((c :: cs) ++ mark back '!').head? ≠ some '!' := hfirst
      rw [List.append_assoc, leadingMark_mark hhead, trailingMark_append_mark hlast]

/-! ## Classes -/

theorem Spelling.text_eq (s : Spelling) :
    s.text namePrefix =
      mark s.bangBefore '!' ++ signed namePrefix s.base s.sign ++ mark s.bangAfter '!' := by
  unfold Spelling.text
  cases s.sign <;> simp [signed, mark]

/-- How a class is read once it is split. -/
theorem parse?_of_split {sep raw utility : Text} {variants : List Text}
    (h : split sep raw = variants ++ [utility]) :
    parse? sep namePrefix raw =
      if variants.any (·.isEmpty) then none
      else (parseUtility? namePrefix utility).map fun read =>
        ⟨variants, read.1, read.2.1, read.2.2⟩ := by
  unfold parse?
  simp only [h, List.getLast?_concat, List.dropLast_concat, Option.bind_eq_bind, Option.bind_some]
  cases parseUtility? namePrefix utility <;> rfl

/-- A separator and a name prefix that cannot be taken for anything else. -/
structure Legible (sep : Char) (namePrefix : Text) : Prop where
  /-- The separator is no bracket and no mark. -/
  separator : isPlain sep = true ∧ sep ≠ '!' ∧ sep ≠ '-'
  /-- The prefix holds no bracket and no separator. -/
  plain : ∀ c ∈ namePrefix, isPlain c = true ∧ c ≠ sep
  /-- The prefix does not begin with a mark. -/
  first : namePrefix.head? ≠ some '!' ∧ namePrefix.head? ≠ some '-'

/-- A base that cannot be taken for anything else. -/
structure LegibleBase (sep : Char) (base : Text) : Prop where
  whole : Whole sep base
  ne_nil : base ≠ []
  /-- It does not begin with a mark. -/
  first : base.head? ≠ some '!' ∧ base.head? ≠ some '-'
  /-- It does not end with a mark. -/
  last : base.getLast? ≠ some '!'

theorem head?_signed_ne {sep : Char} {sign : SignPlace} (hpre : Legible sep namePrefix)
    (hbase : LegibleBase sep base) : (signed namePrefix base sign).head? ≠ some '!' := by
  have hfront : ∀ rest : Text, rest.head? ≠ some '!' → (namePrefix ++ rest).head? ≠ some '!' := by
    intro rest hrest
    cases namePrefix with
    | nil => exact hrest
    | cons c cs => exact hpre.first.1
  have hminus : ∀ rest : Text, ('-' :: rest).head? ≠ some '!' := by simp
  cases sign with
  | none => exact hfront _ hbase.first.1
  | beforePrefix => exact hminus _
  | afterPrefix => exact hfront _ (hminus _)

theorem getLast?_signed {sign : SignPlace} (h : base ≠ []) :
    (signed namePrefix base sign).getLast? = base.getLast? := by
  cases sign with
  | none => exact List.getLast?_append_of_ne_nil _ h
  | beforePrefix => exact List.getLast?_append_of_ne_nil ('-' :: namePrefix) h
  | afterPrefix =>
      rw [signed, List.append_cons]
      exact List.getLast?_append_of_ne_nil _ h

theorem whole_mark {sep c : Char} (hplain : isPlain c = true) (hne : c ≠ sep) (written : Bool) :
    Whole sep (mark written c) := by
  refine whole_of_isPlain fun d hd => ?_
  cases written with
  | true => exact List.mem_singleton.mp hd ▸ ⟨hplain, hne⟩
  | false => exact absurd hd List.not_mem_nil

/-- A spelling is not split: no part of it can be taken for a separator. -/
theorem whole_text {sep : Char} {s : Spelling} (hpre : Legible sep namePrefix)
    (hbase : LegibleBase sep s.base) : Whole sep (s.text namePrefix) := by
  obtain ⟨-, hbang, hminus⟩ := hpre.separator
  have hbangs : ∀ written, Whole sep (mark written '!') := whole_mark rfl hbang.symm
  have hsign : Whole sep ['-'] := whole_mark rfl hminus.symm true
  have hnamed : Whole sep namePrefix := whole_of_isPlain hpre.plain
  have hsigned : Whole sep (signed namePrefix s.base s.sign) := by
    cases s.sign with
    | none => exact hnamed.append hbase.whole
    | beforePrefix => exact hsign.append (hnamed.append hbase.whole)
    | afterPrefix => exact hnamed.append (hsign.append hbase.whole)
  rw [s.text_eq]
  exact ((hbangs s.bangBefore).append hsigned).append (hbangs s.bangAfter)

/-! ## Reading and writing -/

/-- **What is written is read back.** -/
theorem parse?_render {sep : Char} {variants : List Text} {s : Spelling}
    (hpre : Legible sep namePrefix) (hvariants : ∀ v ∈ variants, v ≠ [] ∧ Whole sep v)
    (hbase : LegibleBase sep s.base) (hfits : s.sign.Fits namePrefix) :
    parse? [sep] namePrefix (render [sep] namePrefix variants s) =
      some ⟨variants, s.base, decide (s.sign ≠ .none), s.bangBefore || s.bangAfter⟩ := by
  have hsplit : split [sep] (render [sep] namePrefix variants s) =
      variants ++ [s.text namePrefix] :=
    split_join hpre.separator.1 (fun v hv => (hvariants v hv).2) (whole_text hpre hbase)
  have hnone : ¬ variants.any (·.isEmpty) = true := by
    rw [List.any_eq_true]
    rintro ⟨v, hv, hempty⟩
    exact (hvariants v hv).1 (List.isEmpty_iff.mp hempty)
  have hlast : (signed namePrefix s.base s.sign).getLast? ≠ some '!' :=
    getLast?_signed hbase.ne_nil ▸ hbase.last
  rw [parse?_of_split hsplit, if_neg hnone, s.text_eq,
    parseUtility?_mark (head?_signed_ne hpre hbase) hlast,
    parseSigned?_signed hpre.first.2 hbase.ne_nil hbase.first.2 hfits]
  rfl

/-- **What is read was written in some spelling.** -/
theorem exists_render_of_parse? {sep raw : Text} {c : Candidate} (hsep : sep ≠ [])
    (h : parse? sep namePrefix raw = some c) :
    (∀ v ∈ c.variants, v ≠ []) ∧ c.base ≠ [] ∧ ∃ s : Spelling, s.sign.Fits namePrefix ∧
      raw = render sep namePrefix c.variants s ∧ c.base = s.base ∧
      c.negative = decide (s.sign ≠ .none) ∧ c.important = (s.bangBefore || s.bangAfter) := by
  obtain ⟨variants, utility, hsplit, hraw⟩ := exists_split hsep raw
  rw [parse?_of_split hsplit] at h
  split at h
  · exact absurd h (by simp)
  rename_i hnone
  obtain ⟨⟨base, negative, important⟩, hread, rfl⟩ := Option.map_eq_some_iff.mp h
  rw [parseUtility?_eq] at hread
  obtain ⟨⟨base', negative'⟩, hsigned, heq⟩ := Option.map_eq_some_iff.mp hread
  obtain ⟨rfl, rfl, rfl⟩ : base' = base ∧ negative' = negative ∧ _ = important := by
    simpa only [Prod.mk.injEq] using heq
  obtain ⟨hne, sign, hfits, htext, hnegative⟩ := signed_of_parseSigned? hsigned
  refine ⟨?_, hne, ⟨base', (leadingMark '!' utility).2,
    (trailingMark '!' (leadingMark '!' utility).1).2, sign⟩, hfits, ?_, rfl, hnegative, rfl⟩
  · intro v hv hempty
    exact hnone (List.any_eq_true.mpr ⟨v, hv, List.isEmpty_iff.mpr hempty⟩)
  · -- the marks that were taken off are written again
    rw [render, Spelling.text_eq, ← htext, List.append_assoc, trailingMark_mark, mark_leadingMark]
    exact hraw

/--
**Reading and writing classes are inverse to each other.**

Let the separator be one character that is no bracket and no mark, and let the name prefix neither
hold brackets or separators nor begin with a mark. A class written from variants and a base that
close their brackets, hold no separator outside them and cannot be taken for marks is read back as
these variants and this base, negative if a sign was written and important if a mark was, wherever
they stand.

Conversely, under any separator and prefix, a class that is read at all is its variants and one of
the spellings of its base, with the separator between them, and it is negative and important as the
spelling says.
-/
theorem classes_read_back :
    (∀ (sep : Char) (namePrefix : Text) (variants : List Text) (s : Spelling),
      Legible sep namePrefix → (∀ v ∈ variants, v ≠ [] ∧ Whole sep v) →
      LegibleBase sep s.base → s.sign.Fits namePrefix →
      parse? [sep] namePrefix (render [sep] namePrefix variants s) =
        some ⟨variants, s.base, decide (s.sign ≠ .none), s.bangBefore || s.bangAfter⟩) ∧
    (∀ (sep namePrefix raw : Text) (c : Candidate), sep ≠ [] →
      parse? sep namePrefix raw = some c →
      (∀ v ∈ c.variants, v ≠ []) ∧ c.base ≠ [] ∧ ∃ s : Spelling, s.sign.Fits namePrefix ∧
        raw = render sep namePrefix c.variants s ∧ c.base = s.base ∧
        c.negative = decide (s.sign ≠ .none) ∧ c.important = (s.bangBefore || s.bangAfter)) := by
  constructor
  · intro sep namePrefix variants s hpre hvariants hbase hfits
    exact parse?_render hpre hvariants hbase hfits
  · intro sep namePrefix raw c hsep h
    exact exists_render_of_parse? hsep h

/-- A separator in the brackets of a variant and of a base that holds marks as well, behind a prefix
that ends with a hyphen, and the spelling of a class under a separator of two characters. -/
theorem classes_read_back_bracketed :
    parse? [':'] "tw-".toList "[&:hover]:!tw--bg-[url(a:!b)]!".toList =
        some ⟨["[&:hover]".toList], "bg-[url(a:!b)]".toList, true, true⟩ ∧
      ∃ s : Spelling, "sm__-m-1".toList = render "__".toList [] ["sm".toList] s ∧
        s.base = "m-1".toList ∧ s.sign ≠ .none ∧ (s.bangBefore || s.bangAfter) = false := by
  have hpre : Legible ':' "tw-".toList := by
    refine ⟨by decide, fun c hc => ?_, by decide⟩
    have hall : "tw-".toList.all (fun c => isPlain c && c != ':') = true := by decide
    simpa using List.all_eq_true.mp hall c hc
  constructor
  · refine classes_read_back.1 ':' "tw-".toList ["[&:hover]".toList]
      ⟨"bg-[url(a:!b)]".toList, true, true, .afterPrefix⟩ hpre ?_
      ⟨⟨by decide, by decide⟩, by decide, by decide, by decide⟩ (fun _ => by decide)
    intro v hv
    obtain rfl := List.mem_singleton.mp hv
    exact ⟨by decide, by decide, by decide⟩
  · obtain ⟨-, -, s, -, hraw, hbase, hnegative, himportant⟩ := classes_read_back.2 "__".toList []
      "sm__-m-1".toList ⟨["sm".toList], "m-1".toList, true, false⟩ (by decide) (by decide)
    exact ⟨s, hraw, hbase.symm, of_decide_eq_true hnegative.symm, himportant.symm⟩

end ClassSort.Candidate
