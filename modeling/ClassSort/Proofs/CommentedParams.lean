import ClassSort.Proofs.MovedText
import ClassSort.Proofs.UnitOverlap

/-!
# Comments in the parameters of a rule

A rule is left alone if a block comment begins in its parameters, outside strings and at any depth
of brackets. The reader of parameters is followed character by character (`Reader.step`): it runs
on until the rule ends, and gives up where a comment or an interpolation begins.

That the rule has no unit is not the whole story. Its parameters could still be changed by the
unit of another rule that reaches into them. A rule behind it does so only if its keyword stands
in the parameters. **A rule before it cannot**: its reader would come to the same comment, at a
depth that is no smaller, and give up as well. The exception is a reader that believes to be in a
string when this rule begins.

Line comments are not noticed at all, so their words are sorted with the classes.
-/

namespace ClassSort

namespace Stylesheet

/-! ## The reader of parameters -/

/-- The quoting after one more character. -/
def Quoting.step (q : Quoting) (c : Char) : Quoting :=
  match q with
  | .inside quote escaped =>
    if escaped then .inside quote false
    else if c == '\\' then .inside quote true
    else if c == quote then .outside
    else .inside quote false
  | .outside => if c == '\'' || c == '"' then .inside c false else .outside

/-- The reader of parameters between two characters. -/
structure Reader where
  depth : Nat := 0
  quoting : Quoting := .outside
  previous : Char := '\x00'

namespace Reader

/-- The reader after one more character of the parameters. -/
def step (r : Reader) (c : Char) : Reader where
  depth :=
    match r.quoting with
    | .inside _ _ => r.depth
    | .outside =>
      if c == '[' || c == '(' then r.depth + 1
      else if c == ']' || c == ')' then r.depth - 1
      else r.depth
  quoting := r.quoting.step c
  previous := c

/-- The reader after a text. -/
def after (r : Reader) (cs : Text) : Reader := cs.foldl step r

/-- Whether a character ends the rule. -/
def ends (r : Reader) (c : Char) : Bool :=
  r.quoting == .outside && r.depth == 0 && (c == ';' || c == '{' || c == '}')

/-- Whether an interpolation or a comment begins with the last character and this one. -/
def givesUp (r : Reader) (c : Char) : Bool :=
  r.quoting == .outside && (c == '{' && (r.previous == '#' || r.previous == '@') ||
    c == '*' && r.previous == '/')

/-- The parameters at the beginning of a text. -/
def read (r : Reader) (cs : Text) : Option Text := paramsFrom? r.depth r.quoting r.previous cs

theorem read_cons (r : Reader) (c : Char) (cs : Text) :
    r.read (c :: cs) =
      if r.givesUp c then none
      else if r.ends c then some []
      else ((r.step c).read cs).map (c :: ·) := by
  obtain ⟨depth, quoting, previous⟩ := r
  cases quoting with
  | inside quote escaped => rfl
  | outside =>
      have hgives : givesUp ⟨depth, .outside, previous⟩ c =
          (c == '{' && (previous == '#' || previous == '@') || c == '*' && previous == '/') := rfl
      unfold read
      rw [paramsFrom?, hgives]
      by_cases hinterpolation : (c == '{' && (previous == '#' || previous == '@')) = true
      · rw [if_pos hinterpolation, hinterpolation]
        rfl
      · rw [if_neg hinterpolation]
        by_cases hcomment : (c == '*' && previous == '/') = true
        · rw [if_pos hcomment, hcomment, Bool.or_true]
          rfl
        · rw [if_neg hcomment, Bool.eq_false_iff.mpr hinterpolation,
            Bool.eq_false_iff.mpr hcomment]
          -- quotes and brackets end no rule
          by_cases hspecial : c ∈ ['\'', '"', '[', '(', ']', ')']
          · simp only [List.mem_cons, List.not_mem_nil, or_false] at hspecial
            rcases hspecial with rfl | rfl | rfl | rfl | rfl | rfl <;>
              simp [ends, step, Quoting.step]
          · simp only [List.mem_cons, List.not_mem_nil, or_false, not_or] at hspecial
            simp [ends, step, Quoting.step, hspecial]

/-- Whether the reader comes through a text without the end of the rule. -/
def runs : Reader → Text → Bool
  | _, [] => true
  | r, c :: cs => !r.ends c && (r.step c).runs cs

theorem runs_cons {r : Reader} {c : Char} {cs : Text} (h : r.runs (c :: cs) = true) :
    r.ends c = false ∧ (r.step c).runs cs = true := by
  obtain ⟨hends, hrest⟩ := Bool.and_eq_true_iff.mp h
  exact ⟨by simpa using hends, hrest⟩

/-- What the reader comes through belongs to the parameters, unless it gives up. -/
theorem read_of_runs {r : Reader} {front : Text} (h : r.runs front = true) (back : Text) :
    r.read (front ++ back) = none ∨
      r.read (front ++ back) = ((r.after front).read back).map (front ++ ·) := by
  induction front generalizing r with
  | nil => exact .inr (by simp [after])
  | cons c front ih =>
      obtain ⟨hends, hrest⟩ := runs_cons h
      rw [List.cons_append, read_cons, hends]
      split
      · exact .inl rfl
      · rcases ih hrest with hnone | hsome
        · exact .inl (by simp [hnone])
        · refine .inr ?_
          rw [hsome]
          simp [after, Function.comp_def]

/-- Where the rule ends, the parameters end. -/
theorem read_of_not_runs {r : Reader} {front back params : Text}
    (hread : r.read (front ++ back) = some params) (h : r.runs front = false) : params <+: front := by
  induction front generalizing r params with
  | nil => exact absurd h (by simp [runs])
  | cons c front ih =>
      rw [List.cons_append, read_cons] at hread
      split at hread
      · exact absurd hread (by simp)
      · split at hread
        · injection hread with hread
          rw [← hread]
          exact List.nil_prefix
        · rename_i hends
          obtain ⟨rest, hrest, rfl⟩ := Option.map_eq_some_iff.mp hread
          rw [runs, Bool.eq_false_iff.mpr hends] at h
          exact List.cons_prefix_cons.mpr ⟨rfl, ih hrest h⟩

/-- **A comment makes the reader give up.** -/
theorem read_of_comment {r : Reader} {front : Text} (h : r.runs front = true)
    (houtside : (r.after front).quoting = .outside) (back : Text) :
    r.read (front ++ '/' :: '*' :: back) = none := by
  rcases read_of_runs h ('/' :: '*' :: back) with hnone | hsome
  · exact hnone
  · rw [hsome, read_cons, read_cons]
    simp [givesUp, ends, step, Quoting.step, houtside]

/-- The same quoting, at a depth that is no smaller. -/
structure Below (r r' : Reader) : Prop where
  quoting : r'.quoting = r.quoting
  depth : r.depth ≤ r'.depth

theorem Below.step {r r' : Reader} (h : r.Below r') (c : Char) : (r.step c).Below (r'.step c) := by
  obtain ⟨hquoting, hdepth⟩ := h
  refine ⟨by unfold Reader.step; rw [hquoting], ?_⟩
  unfold Reader.step
  rw [hquoting]
  cases r.quoting with
  | inside quote escaped => exact hdepth
  | outside =>
      dsimp only
      split
      · omega
      · split <;> omega

/-- At a greater depth no rule ends sooner. -/
theorem Below.runs {r r' : Reader} (h : r.Below r') {cs : Text} (hruns : r.runs cs = true) :
    r'.runs cs = true ∧ (r'.after cs).quoting = (r.after cs).quoting := by
  induction cs generalizing r r' with
  | nil => exact ⟨rfl, h.quoting⟩
  | cons c cs ih =>
      obtain ⟨hends, hrest⟩ := runs_cons hruns
      obtain ⟨hrest', hquoting⟩ := ih (h.step c) hrest
      have hends' : r'.ends c = false := by
        have hdepth := h.depth
        unfold ends at hends ⊢
        rw [h.quoting]
        by_cases hzero : r'.depth = 0
        · rw [show r.depth = 0 by omega] at hends
          rw [hzero]
          exact hends
        · simp [hzero]
      refine ⟨?_, hquoting⟩
      rw [Reader.runs, hends', hrest']
      rfl

end Reader

/-! ## Units -/

theorem size_le_of_isPrefix {a b : Text} (h : a <+: b) : Text.size a ≤ Text.size b := by
  obtain ⟨rest, rfl⟩ := h
  rw [Text.size_append]
  omega

/-- Parameters with a flag at their end. It stands apart from the classes, and there is nothing but
blanks behind it. -/
structure Flagged (params classes blanks : Text) : Prop where
  split : params = classes ++ (importantFlag ++ blanks)
  apart : classes = [] ∨ Text.endsBlank classes = true
  blanks : Text.allBlank blanks = true

theorem trimEnd_append (cs : Text) {blanks : Text} (h : Text.allBlank blanks = true) :
    Text.trimEnd (cs ++ blanks) = Text.trimEnd cs := by
  unfold Text.trimEnd
  rw [List.reverse_append, List.dropWhile_append_of_pos]
  intro c hc
  exact List.all_eq_true.mp h c (List.mem_reverse.mp hc)

theorem exists_trimEnd (cs : Text) :
    ∃ blanks, cs = Text.trimEnd cs ++ blanks ∧ Text.allBlank blanks = true := by
  refine ⟨(cs.reverse.takeWhile Text.isBlank).reverse, ?_, ?_⟩
  · unfold Text.trimEnd
    rw [← List.reverse_append, List.takeWhile_append_dropWhile, List.reverse_reverse]
  · refine List.all_eq_true.mpr fun c hc => ?_
    exact List.all_eq_true.mp List.all_takeWhile c (List.mem_reverse.mp hc)

theorem trimEnd_append_flag (cs : Text) :
    Text.trimEnd (cs ++ importantFlag) = cs ++ importantFlag := by
  have hflag : importantFlag.reverse = 't' :: "natropmi!".toList := by decide
  unfold Text.trimEnd
  rw [List.reverse_append, hflag, List.cons_append,
    List.dropWhile_cons_of_neg (by decide), ← List.cons_append, ← hflag, ← List.reverse_append,
    List.reverse_reverse]

theorem Flagged.before?_trimEnd {params classes blanks : Text} (h : Flagged params classes blanks) :
    Text.before? importantFlag (Text.trimEnd params) = some classes := by
  rw [h.split, ← List.append_assoc, trimEnd_append _ h.blanks, trimEnd_append_flag]
  exact List.isSuffixOf?_eq_some_iff_append_eq.mpr rfl

/-- **The flag is left out if there is one, and nothing else.** -/
theorem withoutFlag_cases (params : Text) :
    (∃ blanks, Flagged params (withoutFlag params) blanks) ∨
      withoutFlag params = params ∧ ∀ classes blanks, ¬ Flagged params classes blanks := by
  unfold withoutFlag
  split
  · rename_i rest hrest
    split
    · rename_i happart
      obtain ⟨blanks, hblanks, hall⟩ := exists_trimEnd params
      have hflag : rest ++ importantFlag = Text.trimEnd params :=
        List.isSuffixOf?_eq_some_iff_append_eq.mp hrest
      refine .inl ⟨blanks, ?_, ?_, hall⟩
      · rw [← List.append_assoc, hflag]
        exact hblanks
      · simpa using happart
    · rename_i happart
      refine .inr ⟨rfl, fun classes blanks h => happart ?_⟩
      obtain rfl := Option.some.inj (hrest.symm.trans h.before?_trimEnd)
      simpa using h.apart
  · rename_i hnone
    refine .inr ⟨rfl, fun classes blanks h => ?_⟩
    exact absurd (hnone.symm.trans h.before?_trimEnd) (by simp)

theorem withoutFlag_isPrefix (params : Text) : withoutFlag params <+: params := by
  rcases withoutFlag_cases params with ⟨blanks, h⟩ | ⟨h, -⟩
  · exact ⟨_, h.split.symm⟩
  · exact ⟨[], by rw [List.append_nil, h]⟩

theorem stop_of_ruleUnit? {source : Text} {start : Nat} {u : ClassUnit}
    (h : ruleUnit? source start = some u) :
    ∃ cs params, Text.drop? source start = some cs ∧ params? cs = some params ∧
      u.span.stop ≤ start + Text.size params := by
  obtain ⟨cs, params, hcs, hparams, -, rfl⟩ := exists_params_of_ruleUnit? h
  have hsize := size_le_of_isPrefix (withoutFlag_isPrefix params)
  refine ⟨cs, params, hcs, hparams, ?_⟩
  show start + Text.size (withoutFlag params) ≤ _
  omega

/-- A comment begins in the parameters at the beginning of a text: outside strings, and before the
rule ends. -/
def HoldsComment (cs : Text) : Prop :=
  ∃ front back, cs = front ++ '/' :: '*' :: back ∧ Reader.runs {} front = true ∧
    (Reader.after {} front).quoting = .outside

theorem params?_of_comment {cs : Text} (h : HoldsComment cs) : params? cs = none := by
  obtain ⟨front, back, rfl, hruns, houtside⟩ := h
  exact Reader.read_of_comment hruns houtside back

/-- The parameters of the rule whose keyword ends at `start` go on to `stop` and are inside a string
there. -/
def StringOpenAt (source : Text) (start stop : Nat) : Prop :=
  ∃ mid, Text.slice? source ⟨start, stop⟩ = some mid ∧ Reader.runs {} mid = true ∧
    (Reader.after {} mid).quoting ≠ .outside

/-- **No unit of an earlier rule reaches into parameters with a comment.** -/
theorem stop_le_of_comment {source cs : Text} {start stop : Nat} {u : ClassUnit}
    (hle : start ≤ stop) (hu : ruleUnit? source start = some u)
    (hcs : Text.drop? source stop = some cs) (hcomment : HoldsComment cs)
    (hstring : ¬ StringOpenAt source start stop) : u.span.stop ≤ stop := by
  obtain ⟨rest, params, hrest, hparams, hstop⟩ := stop_of_ruleUnit? hu
  obtain ⟨a, hsource, rfl⟩ := Text.drop?_eq_some.mp hrest
  obtain ⟨b, hsource', rfl⟩ := Text.drop?_eq_some.mp hcs
  obtain ⟨mid, rfl, rfl⟩ := Edit.append_after (hsource.symm.trans hsource') hle
  have hslice : Text.slice? source ⟨Text.size a, Text.size (a ++ mid)⟩ = some mid := by
    rw [hsource', Text.size_append]
    exact Text.slice?_append a mid cs
  have hread : Reader.read {} (mid ++ cs) = some params := hparams
  by_cases hruns : Reader.runs {} mid = true
  · exfalso
    obtain ⟨front, back, rfl, hfront, houtside⟩ := hcomment
    -- the rule goes on up to here, outside strings
    have hmid : (Reader.after {} mid).quoting = .outside := by
      by_contra hinside
      exact hstring ⟨mid, hslice, hruns, hinside⟩
    -- the reader is as deep as the one that begins here, or deeper
    have hbelow : Reader.Below {} (Reader.after {} mid) := ⟨hmid, Nat.zero_le _⟩
    obtain ⟨hfront', hquoting⟩ := hbelow.runs hfront
    rcases Reader.read_of_runs hruns (front ++ '/' :: '*' :: back) with hnone | hsome
    · exact absurd (hread.symm.trans hnone) (by simp)
    · rw [Reader.read_of_comment hfront' (hquoting.trans houtside)] at hsome
      exact absurd (hread.symm.trans hsome) (by simp)
  · have hsize := size_le_of_isPrefix
      (Reader.read_of_not_runs hread (Bool.eq_false_iff.mpr hruns))
    rw [Text.size_append]
    omega

/-! ## Units of rules -/

/-- The units of the rules with some keywords, in any order. -/
def UnitsOfRules (source : Text) (ks : List AtKeyword) (us : List ClassUnit) : Prop :=
  ∀ u, u ∈ us ↔ ∃ k ∈ ks, ruleUnit? source k.span.stop = some u

/-- The keywords of the rules that hold classes. -/
def classKeywords (source : Text) : List AtKeyword :=
  (atKeywords source).filter fun k => k.text == "@apply".toList

theorem unitsOfRules_units (source : Text) :
    UnitsOfRules source (classKeywords source) (Language.stylesheet.units source) := by
  intro u
  have hfound : u ∈ Language.stylesheet.units source ↔ u ∈ units ["@apply".toList] source ++ [] :=
    (stableSort_perm _ _).mem_iff
  rw [hfound, List.append_nil]
  unfold units unitsOf classKeywords
  rw [List.mem_filterMap]
  simp

/-- **Parameters with a comment are left alone**, whatever the keywords of the source are. No unit
begins with them. And no unit reaches into them, if no keyword stands in them and no rule before
them has a string open. -/
theorem separate_of_comment {before params tail : Text} {ks : List AtKeyword} {us : List ClassUnit}
    (hus : UnitsOfRules (before ++ params ++ tail) ks us)
    (hcomment : HoldsComment (params ++ tail)) :
    (∀ u ∈ us, u.span.start ≠ Text.size before) ∧
    ((∀ k ∈ ks, k.span.stop ≤ Text.size before ∨ Text.size (before ++ params) ≤ k.span.stop) →
      (∀ k ∈ ks, k.span.stop < Text.size before →
        ¬ StringOpenAt (before ++ params ++ tail) k.span.stop (Text.size before)) →
      ∀ u ∈ us, u.span.Separate ⟨Text.size before, Text.size (before ++ params)⟩) := by
  have hcs : Text.drop? (before ++ params ++ tail) (Text.size before) = some (params ++ tail) :=
    Text.drop?_eq_some.mpr ⟨before, List.append_assoc _ _ _, rfl⟩
  have hnone : ruleUnit? (before ++ params ++ tail) (Text.size before) = none := by
    unfold ruleUnit?
    rw [hcs]
    simp [params?_of_comment hcomment]
  have hstart : ∀ {k : AtKeyword} {u : ClassUnit},
      ruleUnit? (before ++ params ++ tail) k.span.stop = some u →
      k.span.stop ≠ Text.size before := by
    intro k u hu heq
    rw [heq, hnone] at hu
    exact absurd hu (by simp)
  constructor
  · intro u hu heq
    obtain ⟨k, -, hunit⟩ := (hus u).mp hu
    exact hstart hunit ((start_of_ruleUnit? hunit).symm.trans heq)
  · intro hinside hstrings u hu
    obtain ⟨k, hk, hunit⟩ := (hus u).mp hu
    have hbegin := start_of_ruleUnit? hunit
    have hne := hstart hunit
    -- a rule before the parameters ends before them, any other begins behind them
    rcases hinside k hk with hbefore | hbehind
    · have hlt : k.span.stop < Text.size before := by omega
      exact .inl (stop_le_of_comment hbefore hunit hcs hcomment (hstrings k hk hlt))
    · exact .inr (by rw [hbegin]; exact hbehind)

end Stylesheet

namespace Parser

open Stylesheet

/--
**A block comment in its parameters leaves a rule untouched.**

Behind `before` begin parameters with a comment that is outside strings. No unit begins there. And
the parameters stay as they are, if no other rule with classes begins in them and no rule before
them has a string open.
-/
theorem commented_params_are_kept {p : Parser} (hp : p.language = .stylesheet)
    (before params tail : Text) (hcomment : HoldsComment (params ++ tail)) :
    (∀ u ∈ p.language.units (before ++ params ++ tail), u.span.start ≠ Text.size before) ∧
    ((∀ k ∈ classKeywords (before ++ params ++ tail),
        k.span.stop ≤ Text.size before ∨ Text.size (before ++ params) ≤ k.span.stop) →
      (∀ k ∈ classKeywords (before ++ params ++ tail), k.span.stop < Text.size before →
        ¬ StringOpenAt (before ++ params ++ tail) k.span.stop (Text.size before)) →
      ∀ r : Ranking, ∃ out, p.sortClasses r (before ++ params ++ tail) = some out ∧
        Text.slice? out ((⟨Text.size before, Text.size (before ++ params)⟩ : Span).map
          (Edit.moved (p.edits r (before ++ params ++ tail)))) = some params) := by
  have hus := unitsOfRules_units (before ++ params ++ tail)
  rw [← hp] at hus
  obtain ⟨hstart, hfree⟩ := separate_of_comment hus hcomment
  refine ⟨hstart, fun hinside hstrings r => ?_⟩
  have hslice : Text.slice? (before ++ params ++ tail)
      ⟨Text.size before, Text.size (before ++ params)⟩ = some params := by
    rw [Text.size_append]
    exact Text.slice?_append before params tail
  obtain ⟨out, hout, hkept⟩ := ClassUnit.slice?_of_separate r.ofSource (by simp)
    (hfree hinside hstrings)
  exact ⟨out, by rw [sortClasses_eq, hout], hkept.trans hslice⟩

/-- A rule with a comment between two others. -/
def sheetBefore : Text := ".z \x7b @apply b a; \x7d .a \x7b @apply".toList
def sheetParams : Text := " b /* x */ a".toList
def sheetTail : Text := "; @apply b a; \x7d".toList

/-- The rules around it are sorted, the one with the comment is not. -/
theorem commented_params_are_kept_between :
    (Parser.scss.language.units (sheetBefore ++ sheetParams ++ sheetTail)).length = 2 ∧
    ∃ out, Parser.scss.sortClasses (Ranking.ofNames ["a".toList, "b".toList])
        (sheetBefore ++ sheetParams ++ sheetTail) = some out ∧
      Text.slice? out ((⟨Text.size sheetBefore, Text.size (sheetBefore ++ sheetParams)⟩ : Span).map
        (Edit.moved (Parser.scss.edits (Ranking.ofNames ["a".toList, "b".toList])
          (sheetBefore ++ sheetParams ++ sheetTail)))) = some sheetParams := by
  have hstops : (classKeywords (sheetBefore ++ sheetParams ++ sheetTail)).map (·.span.stop) =
      [11, 30, 50] := by decide +kernel
  have hsizes : Text.size sheetBefore = 30 ∧ Text.size (sheetBefore ++ sheetParams) = 42 :=
    ⟨by decide +kernel, by decide +kernel⟩
  have hstop : ∀ k ∈ classKeywords (sheetBefore ++ sheetParams ++ sheetTail),
      k.span.stop ∈ [11, 30, 50] := fun k hk => hstops ▸ List.mem_map_of_mem hk
  have hcomment : HoldsComment (sheetParams ++ sheetTail) :=
    ⟨" b ".toList, " x */ a; @apply b a; \x7d".toList, by decide +kernel, by decide +kernel,
      by decide +kernel⟩
  have hscss : Parser.scss.language = .stylesheet := rfl
  refine ⟨by decide +kernel,
    (commented_params_are_kept hscss sheetBefore sheetParams sheetTail hcomment).2 ?_ ?_ _⟩
  · intro k hk
    have hmem := hstop k hk
    rw [hsizes.1, hsizes.2]
    simp at hmem
    omega
  · intro k hk hlt
    have hfirst : k.span.stop = 11 := by
      have hmem := hstop k hk
      rw [hsizes.1] at hlt
      simp at hmem
      omega
    -- the first rule ends before the second begins
    rintro ⟨mid, hmid, hruns, -⟩
    have hslice : Text.slice? (sheetBefore ++ sheetParams ++ sheetTail) ⟨11, 30⟩ =
        some " b a; \x7d .a \x7b @apply".toList := by decide +kernel
    rw [hfirst, hsizes.1, hslice] at hmid
    have hended : Reader.runs {} " b a; \x7d .a \x7b @apply".toList = false := by decide +kernel
    rw [← Option.some.inj hmid, hended] at hruns
    exact absurd hruns (by simp)

/-- **A line comment is sorted with the classes**, and takes what comes behind it along. Nor are
parameters with a block comment safe from a rule that begins in them, or from one before them with
a string that is still open. -/
theorem line_comment_is_sorted :
    Parser.scss.sortClasses (Ranking.ofNames ["a".toList, "b".toList])
        ".a \x7b @apply b // note\n    a; \x7d".toList =
      some ".a \x7b @apply // note a b; \x7d".toList ∧
    Parser.css.sortClasses (Ranking.ofNames ["c".toList, "d".toList])
        ".a \x7b @apply b /* x */ @apply d c; \x7d".toList =
      some ".a \x7b @apply b /* x */ @apply c d; \x7d".toList ∧
    Parser.css.sortClasses (Ranking.ofNames ["a".toList, "b".toList])
        ".a \x7b @apply 'x\n; @apply b /* n */ a '; \x7d".toList =
      some ".a \x7b @apply 'x ; @apply /* n */ ' a b; \x7d".toList :=
  ⟨by decide +kernel, by decide +kernel, by decide +kernel⟩

end Parser

end ClassSort
