import ClassSort.Proofs.MovedText
import ClassSort.Proofs.UnitBlocks
import ClassSort.Proofs.WordSeams

/-!
# The text that an expression stands for

An expression is evaluated with the static text that is written in it and with an
`Assignment` for all the rest: the texts of what is computed elsewhere, and which way each
choice goes. Static text is read through a function from ranges to texts, so that the same
expression can be evaluated before and after the source is rewritten.

The value is the text of a row of `Part`s. Static parts are where class lists are found: each
of them is a unit, or has no word in it. The units of a source do not tell where its blank
parts are. But **where things are does not depend on the text** (`sublist_unitsAs`), so the
blank parts are found among the units of a text of the same size without any blanks
(`cover`).
-/

namespace ClassSort

/-- What is read in a range of a text, with the offsets moved by `f`. -/
def Text.readAt (text : Text) (f : Nat → Nat) (s : Span) : Text :=
  if s.isEmpty then [] else (Text.slice? text (s.map f)).getD []

namespace Script

/-! ## Values -/

/-- What an expression leaves open. -/
structure Assignment where
  /-- The texts of what is computed elsewhere, and of what is written with escapes. -/
  text : Span → Text
  /-- Whether a choice goes to the first of its operands. -/
  choice : Span → Bool

/-- The text of a static part of a template. One with a backslash has escapes in it. -/
def segmentValue (σ : Assignment) (source : Text) (read : Span → Text) (s : Span) : Text :=
  match Text.slice? source s with
  | none => []
  | some text => if text.contains '\\' then σ.text s else read s

mutual

/-- The text that an expression stands for. Calls, arrays, objects and everything that is
passed over are taken as given. -/
def Expr.value (σ : Assignment) (source : Text) (read : Span → Text) : Expr → Text
  | .string span escaped =>
    if escaped then σ.text span else read ⟨span.start + 1, span.stop - 1⟩
  | .template span holes => holesValue σ source read (span.start + 1) (span.stop - 1) holes
  | .paren _ inner => inner.value σ source read
  | .wrapped _ (some inner) => inner.value σ source read
  | .wrapped span none => σ.text span
  | .binary span op left right =>
    match op with
    | .plus => left.value σ source read ++ right.value σ source read
    | .fallback =>
      if σ.choice span then left.value σ source read else right.value σ source read
    | .guarded => if σ.choice span then right.value σ source read else σ.text span
    | .other => σ.text span
  | .ternary span _ consequence alternative =>
    if σ.choice span then consequence.value σ source read else alternative.value σ source read
  | .call span _ _ => σ.text span
  | .array span _ => σ.text span
  | .object span _ => σ.text span
  | .subscript span _ _ => σ.text span
  | .other span => σ.text span

/-- The text of a template from `start` on, with its remaining holes. -/
def holesValue (σ : Assignment) (source : Text) (read : Span → Text) (start stop : Nat) :
    List (Span × Expr) → Text
  | [] => segmentValue σ source read ⟨start, stop⟩
  | (span, e) :: holes =>
    segmentValue σ source read ⟨start, span.start⟩ ++ e.value σ source read ++
      holesValue σ source read span.stop stop holes

end

/-! ## Parts -/

/-- A part of the text that an expression stands for. -/
inductive Part where
  /-- What is written in a range. The ends are those that are fixed when it is sorted. -/
  | static (span : Span) (ends : FixedEnds)
  | given (text : Text)
deriving Repr, DecidableEq

def Part.text (read : Span → Text) : Part → Text
  | .static span _ => read span
  | .given text => text

/-- A static part of a template. A word that touches a hole is fixed. -/
def segmentParts (σ : Assignment) (source : Text) (s : Span) (afterHole beforeHole : Bool) :
    List Part :=
  match Text.slice? source s with
  | none => []
  | some text =>
    if text.contains '\\' then [.given (σ.text s)]
    else [.static s ⟨afterHole && !Text.startsBlank text, beforeHole && !Text.endsBlank text⟩]

mutual

/-- The parts that the text of an expression is put together from. -/
def Expr.parts (σ : Assignment) (source : Text) : Expr → List Part
  | .string span escaped =>
    if escaped then [.given (σ.text span)] else [.static ⟨span.start + 1, span.stop - 1⟩ {}]
  | .template span holes => holesParts σ source (span.start + 1) (span.stop - 1) false holes
  | .paren _ inner => inner.parts σ source
  | .wrapped _ (some inner) => inner.parts σ source
  | .wrapped span none => [.given (σ.text span)]
  | .binary span op left right =>
    match op with
    | .plus => left.parts σ source ++ right.parts σ source
    | .fallback => if σ.choice span then left.parts σ source else right.parts σ source
    | .guarded => if σ.choice span then right.parts σ source else [.given (σ.text span)]
    | .other => [.given (σ.text span)]
  | .ternary span _ consequence alternative =>
    if σ.choice span then consequence.parts σ source else alternative.parts σ source
  | .call span _ _ => [.given (σ.text span)]
  | .array span _ => [.given (σ.text span)]
  | .object span _ => [.given (σ.text span)]
  | .subscript span _ _ => [.given (σ.text span)]
  | .other span => [.given (σ.text span)]

/-- The parts of a template from `start` on. -/
def holesParts (σ : Assignment) (source : Text) (start stop : Nat) (afterHole : Bool) :
    List (Span × Expr) → List Part
  | [] => segmentParts σ source ⟨start, stop⟩ afterHole false
  | (span, e) :: holes =>
    segmentParts σ source ⟨start, span.start⟩ afterHole true ++ e.parts σ source ++
      holesParts σ source span.stop stop true holes

end

/-- The text of some parts. -/
def textOf (read : Span → Text) (parts : List Part) : Text := parts.flatMap (·.text read)

theorem textOf_append (read : Span → Text) (ps qs : List Part) :
    textOf read (ps ++ qs) = textOf read ps ++ textOf read qs := List.flatMap_append

theorem textOf_given (read : Span → Text) (t : Text) : textOf read [.given t] = t :=
  List.append_nil t

theorem textOf_static (read : Span → Text) (s : Span) (ends : FixedEnds) :
    textOf read [.static s ends] = read s := List.append_nil _

section

variable (σ : Assignment) (source : Text) (read : Span → Text)

theorem segmentValue_eq (s : Span) (afterHole beforeHole : Bool) :
    segmentValue σ source read s = textOf read (segmentParts σ source s afterHole beforeHole) := by
  unfold segmentValue segmentParts
  split
  · rfl
  · split
    · exact (textOf_given _ _).symm
    · exact (textOf_static _ _ _).symm

mutual

/-- **The value of an expression is the text of its parts.** -/
theorem value_eq : ∀ e : Expr, e.value σ source read = textOf read (e.parts σ source)
  | .string span escaped => by
      cases escaped with
      | true => exact (textOf_given _ _).symm
      | false => exact (textOf_static _ _ _).symm
  | .template span holes => holesValue_eq _ _ false holes
  | .paren _ inner => value_eq inner
  | .wrapped _ (some inner) => value_eq inner
  | .wrapped _ none => (textOf_given _ _).symm
  | .binary span .plus left right => by
      show left.value σ source read ++ right.value σ source read =
        textOf read (left.parts σ source ++ right.parts σ source)
      rw [textOf_append, value_eq left, value_eq right]
  | .binary span .fallback left right => by
      show (if σ.choice span then left.value σ source read else right.value σ source read) =
        textOf read (if σ.choice span then left.parts σ source else right.parts σ source)
      split
      · exact value_eq left
      · exact value_eq right
  | .binary span .guarded left right => by
      show (if σ.choice span then right.value σ source read else σ.text span) =
        textOf read (if σ.choice span then right.parts σ source else [.given (σ.text span)])
      split
      · exact value_eq right
      · exact (textOf_given _ _).symm
  | .binary _ .other _ _ => (textOf_given _ _).symm
  | .ternary span _ consequence alternative => by
      show (if σ.choice span then consequence.value σ source read
          else alternative.value σ source read) =
        textOf read (if σ.choice span then consequence.parts σ source
          else alternative.parts σ source)
      split
      · exact value_eq consequence
      · exact value_eq alternative
  | .call _ _ _ => (textOf_given _ _).symm
  | .array _ _ => (textOf_given _ _).symm
  | .object _ _ => (textOf_given _ _).symm
  | .subscript _ _ _ => (textOf_given _ _).symm
  | .other _ => (textOf_given _ _).symm

theorem holesValue_eq (start stop : Nat) (afterHole : Bool) : ∀ holes : List (Span × Expr),
    holesValue σ source read start stop holes =
      textOf read (holesParts σ source start stop afterHole holes)
  | [] => segmentValue_eq σ source read _ _ _
  | (span, e) :: holes => by
      show segmentValue σ source read ⟨start, span.start⟩ ++ e.value σ source read ++
          holesValue σ source read span.stop stop holes =
        textOf read (segmentParts σ source ⟨start, span.start⟩ afterHole true ++
          e.parts σ source ++ holesParts σ source span.stop stop true holes)
      rw [textOf_append, textOf_append, segmentValue_eq _ _ _ _ afterHole true, value_eq e,
        holesValue_eq span.stop stop true holes]

end

end

/-! ## Where the static parts are -/

/-- A text of `n` bytes without blanks or escapes. -/
def cover (n : Nat) : Text := List.replicate n 'x'

theorem size_cover (n : Nat) : Text.size (cover n) = n := by
  induction n with
  | zero => rfl
  | succ n ih =>
      have hx : Char.utf8Size 'x' = 1 := by decide
      rw [cover, List.replicate_succ, Text.size_cons, hx, ← cover, ih]
      omega

theorem slice?_cover {i j n : Nat} (hij : i ≤ j) (hj : j ≤ n) :
    Text.slice? (cover n) ⟨i, j⟩ = some (cover (j - i)) := by
  refine Text.slice?_eq_some.mpr ⟨cover i, cover (n - j), ?_, size_cover i, ?_⟩
  · unfold cover
    rw [List.replicate_append_replicate, List.replicate_append_replicate]
    congr 1
    omega
  · rw [size_cover]
    omega

/-- In a text without blanks every part of a template that is not empty is a class list. -/
theorem segmentUnits_cover {i j n : Nat} (hij : i < j) (hj : j ≤ n) (afterHole beforeHole : Bool) :
    ∃ ends, segmentUnits (cover n) ⟨i, j⟩ afterHole beforeHole =
      [.list ⟨⟨i, j⟩, .interpolationSegment, .template, ends⟩] := by
  have hink : Text.allBlank (cover (j - i)) = false := by
    obtain ⟨k, hk⟩ : ∃ k, j - i = k + 1 := ⟨j - i - 1, by omega⟩
    have hx : Text.isBlank 'x' = false := by decide
    rw [hk, cover, List.replicate_succ, Text.allBlank, List.all_cons, hx, Bool.false_and]
  have hplain : (cover (j - i)).contains '\\' = false := by
    simp [cover]
  unfold segmentUnits
  rw [slice?_cover (Nat.le_of_lt hij) hj]
  dsimp only
  rw [hink, hplain]
  exact ⟨_, rfl⟩

/-- The unit without regard to its ends, which depend on the text. -/
def unfixed : ClassUnit → ClassUnit
  | .list c => .list { c with ends := {} }
  | .entries es => .entries es

theorem span_unfixed (u : ClassUnit) : (unfixed u).span = u.span := by
  cases u <;> rfl

/-- What is found in a text is found in its cover. -/
theorem sublist_segmentUnits (source : Text) (s : Span) (afterHole beforeHole : Bool) :
    ((segmentUnits source s afterHole beforeHole).map unfixed).Sublist
      ((segmentUnits (cover (Text.size source)) s afterHole beforeHole).map unfixed) := by
  cases htext : Text.slice? source s with
  | none =>
      have hnone : segmentUnits source s afterHole beforeHole = [] := by
        unfold segmentUnits
        rw [htext]
      rw [hnone]
      exact List.nil_sublist _
  | some text =>
      have hbounds := Text.bounds_of_slice? htext
      have hunits : segmentUnits source s afterHole beforeHole =
          if Text.allBlank text || text.contains '\\' then [] else
            [.list ⟨s, .interpolationSegment, .template,
              ⟨afterHole && !Text.startsBlank text, beforeHole && !Text.endsBlank text⟩⟩] := by
        unfold segmentUnits
        rw [htext]
      rw [hunits]
      split
      · exact List.nil_sublist _
      · rename_i hlist
        have hne : text ≠ [] := by
          rintro rfl
          exact hlist rfl
        have hpos := Text.size_pos hne
        obtain ⟨ends, hcover⟩ := segmentUnits_cover (i := s.start) (j := s.stop) (by omega)
          hbounds.2 afterHole beforeHole
        rw [hcover]
        exact List.Sublist.refl _

section

variable (source : Text)

mutual

/-- **Where the units of an expression are does not depend on the text**, except that a part
of a template may not be one. -/
theorem sublist_unitsAs (shape : Shape) : ∀ e : Expr,
    ((e.unitsAs source shape).map unfixed).Sublist
      ((e.unitsAs (cover (Text.size source)) shape).map unfixed)
  | .string _ _ => List.Sublist.refl _
  | .template _ holes => sublist_holeUnits shape _ _ false holes
  | .paren _ inner => sublist_unitsAs shape inner
  | .wrapped _ (some inner) => sublist_unitsAs shape inner
  | .wrapped _ none => List.Sublist.refl _
  | .binary _ .plus left right => by
      show ((left.unitsAs source shape ++ right.unitsAs source shape).map unfixed).Sublist
        ((left.unitsAs _ shape ++ right.unitsAs _ shape).map unfixed)
      rw [List.map_append, List.map_append]
      exact (sublist_unitsAs shape left).append (sublist_unitsAs shape right)
  | .binary _ .fallback left right => by
      show ((left.unitsAs source shape ++ right.unitsAs source shape).map unfixed).Sublist
        ((left.unitsAs _ shape ++ right.unitsAs _ shape).map unfixed)
      rw [List.map_append, List.map_append]
      exact (sublist_unitsAs shape left).append (sublist_unitsAs shape right)
  | .binary _ .guarded _ right => sublist_unitsAs shape right
  | .binary _ .other _ _ => List.Sublist.refl _
  | .ternary _ _ consequence alternative => by
      show ((consequence.unitsAs source .ternaryBranch ++
          alternative.unitsAs source .ternaryBranch).map unfixed).Sublist
        ((consequence.unitsAs _ .ternaryBranch ++
          alternative.unitsAs _ .ternaryBranch).map unfixed)
      rw [List.map_append, List.map_append]
      exact (sublist_unitsAs _ consequence).append (sublist_unitsAs _ alternative)
  | .call _ _ arguments => sublist_listUnits .callArgument arguments
  | .array _ items => sublist_listUnits .arrayElement items
  | .object _ _ => List.Sublist.refl _
  | .subscript _ _ _ => List.Sublist.refl _
  | .other _ => List.Sublist.refl _

theorem sublist_listUnits (shape : Shape) : ∀ es : List Expr,
    ((listUnits source shape es).map unfixed).Sublist
      ((listUnits (cover (Text.size source)) shape es).map unfixed)
  | [] => List.Sublist.refl _
  | e :: es => by
      show ((e.unitsAs source shape ++ listUnits source shape es).map unfixed).Sublist
        ((e.unitsAs _ shape ++ listUnits _ shape es).map unfixed)
      rw [List.map_append, List.map_append]
      exact (sublist_unitsAs shape e).append (sublist_listUnits shape es)

theorem sublist_holeUnits (shape : Shape) (start stop : Nat) (afterHole : Bool) :
    ∀ holes : List (Span × Expr),
      ((holeUnits source shape start stop afterHole holes).map unfixed).Sublist
        ((holeUnits (cover (Text.size source)) shape start stop afterHole holes).map unfixed)
  | [] => by
      show ((if start ≤ stop then segmentUnits source ⟨start, stop⟩ afterHole false
          else []).map unfixed).Sublist
        ((if start ≤ stop then segmentUnits _ ⟨start, stop⟩ afterHole false else []).map unfixed)
      split
      · exact sublist_segmentUnits source _ _ _
      · exact List.Sublist.refl _
  | (span, e) :: holes => by
      show ((segmentUnits source ⟨start, span.start⟩ afterHole true ++ e.unitsAs source shape ++
          holeUnits source shape span.stop stop true holes).map unfixed).Sublist
        ((segmentUnits _ ⟨start, span.start⟩ afterHole true ++ e.unitsAs _ shape ++
          holeUnits _ shape span.stop stop true holes).map unfixed)
      rw [List.map_append, List.map_append, List.map_append, List.map_append]
      exact ((sublist_segmentUnits source _ _ _).append (sublist_unitsAs shape e)).append
        (sublist_holeUnits shape span.stop stop true holes)

end

end

/-! ## Static parts as units -/

/-- Where a static part is found: among the units, or among those of the cover if it is
blank. An empty one need not be found. -/
inductive Located (source : Text) (us covered : List ClassUnit) (s : Span) (ends : FixedEnds) : Prop
  | empty (hempty : s.isEmpty = true)
  | unit (c : ClassSpan) (hmem : .list c ∈ us) (hspan : c.span = s) (hends : c.ends = ends)
  | blank (text : Text) (c : ClassSpan) (htext : Text.slice? source s = some text)
      (hblank : Text.allBlank text = true) (hmem : .list c ∈ covered) (hspan : c.span = s)

section

variable {source : Text} {us vs us' vs' : List ClassUnit} {s : Span} {ends : FixedEnds}

/-- What is found stays found among more units. -/
theorem Located.mono (h : Located source us us' s ends) (hus : us ⊆ vs) (hus' : us' ⊆ vs') :
    Located source vs vs' s ends := by
  cases h with
  | empty hempty => exact .empty hempty
  | unit c hmem hspan hends => exact .unit c (hus hmem) hspan hends
  | blank text c htext hblank hmem hspan => exact .blank text c htext hblank (hus' hmem) hspan

theorem Located.left (h : Located source us us' s ends) :
    Located source (us ++ vs) (us' ++ vs') s ends :=
  h.mono (List.subset_append_left us vs) (List.subset_append_left us' vs')

theorem Located.right (h : Located source vs vs' s ends) :
    Located source (us ++ vs) (us' ++ vs') s ends :=
  h.mono (List.subset_append_right us vs) (List.subset_append_right us' vs')

end

theorem not_static_mem_given {s : Span} {ends : FixedEnds} {t : Text} :
    ¬ Part.static s ends ∈ [Part.given t] := by
  simp

theorem located_string {span : Span} {escaped : Bool} {s : Span} {ends : FixedEnds}
    (σ : Assignment) (source covered : Text) (shape : Shape)
    (h : Part.static s ends ∈ (Expr.string span escaped).parts σ source) :
    Located source ((Expr.string span escaped).unitsAs source shape)
      ((Expr.string span escaped).unitsAs covered shape) s ends := by
  cases escaped with
  | true => exact absurd h not_static_mem_given
  | false =>
      have hpart : Part.static s ends = .static ⟨span.start + 1, span.stop - 1⟩ {} :=
        List.mem_singleton.mp h
      injection hpart with hs hends
      subst hs hends
      show Located source (stringUnits shape span false) (stringUnits shape span false) _ _
      unfold stringUnits content?
      by_cases hcontent : span.start + 1 < span.stop - 1
      · simp only [hcontent, Bool.not_false, decide_true, Bool.and_self, if_true]
        exact .unit _ (List.mem_singleton.mpr rfl) rfl rfl
      · exact .empty (decide_eq_true (Nat.le_of_not_lt hcontent))

theorem located_segment {σ : Assignment} {source : Text} {t s : Span} {ends : FixedEnds}
    {afterHole beforeHole : Bool}
    (h : Part.static s ends ∈ segmentParts σ source t afterHole beforeHole) :
    t.start ≤ t.stop ∧ Located source (segmentUnits source t afterHole beforeHole)
      (segmentUnits (cover (Text.size source)) t afterHole beforeHole) s ends := by
  unfold segmentParts at h
  split at h
  · exact absurd h (by simp)
  · rename_i text htext
    have hbounds := Text.bounds_of_slice? htext
    refine ⟨by omega, ?_⟩
    split at h
    · exact absurd h not_static_mem_given
    · rename_i hplain
      have hpart := List.mem_singleton.mp h
      injection hpart with hs hends
      subst hs hends
      cases hblank : Text.allBlank text with
      | false =>
          have hunits : segmentUnits source s afterHole beforeHole =
              [.list ⟨s, .interpolationSegment, .template,
                ⟨afterHole && !Text.startsBlank text, beforeHole && !Text.endsBlank text⟩⟩] := by
            unfold segmentUnits
            rw [htext]
            dsimp only
            rw [hblank, Bool.false_or, if_neg hplain]
          exact .unit _ (hunits ▸ List.mem_singleton.mpr rfl) rfl rfl
      | true =>
          by_cases hforward : s.start < s.stop
          · obtain ⟨ends, hcover⟩ := segmentUnits_cover hforward hbounds.2 afterHole beforeHole
            exact .blank text _ htext hblank (hcover ▸ List.mem_singleton.mpr rfl) rfl
          · exact .empty (decide_eq_true (Nat.le_of_not_lt hforward))

section

variable {σ : Assignment} {source : Text} {s : Span} {ends : FixedEnds}

mutual

/-- **Every static part of an expression is located**, whichever way its choices go. -/
theorem located (shape : Shape) : ∀ e : Expr, Part.static s ends ∈ e.parts σ source →
    Located source (e.unitsAs source shape) (e.unitsAs (cover (Text.size source)) shape) s ends
  | .string _ _, h => located_string σ source _ shape h
  | .template _ holes, h => located_holes shape _ _ false holes h
  | .paren _ inner, h => located shape inner h
  | .wrapped _ (some inner), h => located shape inner h
  | .wrapped _ none, h => absurd h not_static_mem_given
  | .binary _ .plus left right, h => by
      have h' : Part.static s ends ∈ left.parts σ source ++ right.parts σ source := h
      rcases List.mem_append.mp h' with h | h
      · exact (located shape left h).left
      · exact (located shape right h).right
  | .binary span .fallback left right, h => by
      have h' : Part.static s ends ∈
          if σ.choice span then left.parts σ source else right.parts σ source := h
      split at h'
      · exact (located shape left h').left
      · exact (located shape right h').right
  | .binary span .guarded left right, h => by
      have h' : Part.static s ends ∈
          if σ.choice span then right.parts σ source else [.given (σ.text span)] := h
      split at h'
      · exact located shape right h'
      · exact absurd h' not_static_mem_given
  | .binary _ .other _ _, h => absurd h not_static_mem_given
  | .ternary span _ consequence alternative, h => by
      have h' : Part.static s ends ∈
          if σ.choice span then consequence.parts σ source else alternative.parts σ source := h
      split at h'
      · exact (located .ternaryBranch consequence h').left
      · exact (located .ternaryBranch alternative h').right
  | .call _ _ _, h => absurd h not_static_mem_given
  | .array _ _, h => absurd h not_static_mem_given
  | .object _ _, h => absurd h not_static_mem_given
  | .subscript _ _ _, h => absurd h not_static_mem_given
  | .other _, h => absurd h not_static_mem_given

theorem located_holes (shape : Shape) (start stop : Nat) (afterHole : Bool) :
    ∀ holes : List (Span × Expr),
      Part.static s ends ∈ holesParts σ source start stop afterHole holes →
      Located source (holeUnits source shape start stop afterHole holes)
        (holeUnits (cover (Text.size source)) shape start stop afterHole holes) s ends
  | [], h => by
      obtain ⟨hforward, hlocated⟩ := located_segment h
      show Located source
        (if start ≤ stop then segmentUnits source ⟨start, stop⟩ afterHole false else [])
        (if start ≤ stop then segmentUnits _ ⟨start, stop⟩ afterHole false else []) s ends
      rw [if_pos hforward, if_pos hforward]
      exact hlocated
  | (span, e) :: holes, h => by
      have h' : Part.static s ends ∈ segmentParts σ source ⟨start, span.start⟩ afterHole true ++
          e.parts σ source ++ holesParts σ source span.stop stop true holes := h
      rcases List.mem_append.mp h' with h | h
      · rcases List.mem_append.mp h with h | h
        · exact (located_segment h).2.left.left
        · exact (located shape e h).right.left
      · exact (located_holes shape span.stop stop true holes h).right

end

end

end Script

end ClassSort
