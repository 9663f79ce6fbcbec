import Mathlib.Data.List.Forall2
import ClassSort.Proofs.TreeShape
import ClassSort.Proofs.UnitBlocks
import ClassSort.Proofs.DisjointUnits

/-!
# Where the units of a well-formed tree are

The walk over an expression, seen as a row of stretches: each part of the expression with the units
that are found in it, and nothing for the parts that are not entered. The stretches of a well-formed
expression are one behind the other, so a unit that comes from one of them has nothing in common
with the others. By induction along the walk the same holds of everything that is reached, however
deep: its units are those of the whole tree that touch it (`Expr.WellFormed.holds_of_reaches`).

A condition, a callee or an index is a stretch without units, so nothing in the tree touches it.
-/

namespace ClassSort.Script

/-! ## Stretches -/

/-- A static part of a template, and whether it touches holes. -/
structure Segment where
  span : Span
  afterHole : Bool
  beforeHole : Bool
deriving Repr, DecidableEq

/-- The static parts of a template from `start` on. -/
def segments (start stop : Nat) (afterHole : Bool) : List (Span × Expr) → List Segment
  | [] => [⟨⟨start, stop⟩, afterHole, false⟩]
  | (span, _) :: holes =>
    ⟨⟨start, span.start⟩, afterHole, true⟩ :: segments span.stop stop true holes

/-- The class lists of a static part. -/
def Segment.units (source : Text) (g : Segment) : List ClassUnit :=
  segmentUnits source g.span g.afterHole g.beforeHole

/-- A range and the units that are found in it. -/
abbrev Stretch := Span × List ClassUnit

/-- The static parts of a template and its holes, in turn. -/
def holeStretches (source : Text) (shape : Shape) (start stop : Nat) (afterHole : Bool) :
    List (Span × Expr) → List Stretch
  | [] => [(⟨start, stop⟩, segmentUnits source ⟨start, stop⟩ afterHole false)]
  | (span, e) :: holes =>
    (⟨start, span.start⟩, segmentUnits source ⟨start, span.start⟩ afterHole true) ::
      (span, e.unitsAs source shape) :: holeStretches source shape span.stop stop true holes

/-- The parts of an expression with the units that are found in them. From some parts nothing is
taken. -/
def Expr.stretches (source : Text) (shape : Shape) : Expr → List Stretch
  | .string s escaped => [(s, stringUnits shape s escaped)]
  | .template s holes => holeStretches source shape (s.start + 1) (s.stop - 1) false holes
  | .paren _ inner => [(inner.span, inner.unitsAs source shape)]
  | .wrapped _ (some inner) => [(inner.span, inner.unitsAs source shape)]
  | .wrapped _ none => []
  | .binary _ op left right =>
    match op with
    | .plus | .fallback =>
      [(left.span, left.unitsAs source shape), (right.span, right.unitsAs source shape)]
    | .guarded => [(left.span, []), (right.span, right.unitsAs source shape)]
    | .other => [(left.span, []), (right.span, [])]
  | .ternary _ condition consequence alternative =>
    [(condition.span, []), (consequence.span, consequence.unitsAs source .ternaryBranch),
      (alternative.span, alternative.unitsAs source .ternaryBranch)]
  | .call _ callee arguments =>
    (callee.span, []) :: arguments.map fun a => (a.span, a.unitsAs source .callArgument)
  | .array _ items => items.map fun i => (i.span, i.unitsAs source .arrayElement)
  | .object s members => [(s, objectUnits members)]
  | .subscript s base index =>
    [(base.span, (Expr.subscript s base index).unitsAs source shape), (index.span, [])]
  | .other _ => []

theorem listUnits_eq_flatMap (source : Text) (shape : Shape) (es : List Expr) :
    listUnits source shape es = es.flatMap (·.unitsAs source shape) := by
  induction es with
  | nil => rfl
  | cons e es ih =>
      show e.unitsAs source shape ++ listUnits source shape es = _
      rw [ih, List.flatMap_cons]

theorem flatMap_holeStretches (source : Text) (shape : Shape) (stop : Nat)
    (holes : List (Span × Expr)) : ∀ (start : Nat) (afterHole : Bool),
    holeUnits source shape start stop afterHole holes =
      (holeStretches source shape start stop afterHole holes).flatMap (·.2) := by
  induction holes with
  | nil =>
      intro start afterHole
      show (if start ≤ stop then segmentUnits source ⟨start, stop⟩ afterHole false else []) =
        segmentUnits source ⟨start, stop⟩ afterHole false ++ []
      rw [List.append_nil]
      split
      · rfl
      · rename_i hback
        unfold segmentUnits Text.slice?
        rw [if_neg hback]
  | cons h holes ih =>
      intro start afterHole
      obtain ⟨span, e⟩ := h
      show segmentUnits source ⟨start, span.start⟩ afterHole true ++ e.unitsAs source shape ++
          holeUnits source shape span.stop stop true holes =
        segmentUnits source ⟨start, span.start⟩ afterHole true ++ (e.unitsAs source shape ++
          (holeStretches source shape span.stop stop true holes).flatMap (·.2))
      rw [ih, List.append_assoc]

/-- **The units of an expression are those of its stretches, in order.** -/
theorem unitsAs_eq_flatMap (source : Text) (shape : Shape) (e : Expr) :
    e.unitsAs source shape = (e.stretches source shape).flatMap (·.2) := by
  cases e with
  | string s escaped => exact (List.append_nil _).symm
  | template s holes => exact flatMap_holeStretches source shape _ holes _ _
  | paren s inner => exact (List.append_nil _).symm
  | wrapped s inner =>
      cases inner with
      | none => rfl
      | some inner => exact (List.append_nil _).symm
  | binary s op left right =>
      cases op with
      | plus => exact congrArg _ (List.append_nil _).symm
      | fallback => exact congrArg _ (List.append_nil _).symm
      | guarded => exact (List.append_nil _).symm
      | other => rfl
  | ternary s condition consequence alternative => exact congrArg _ (List.append_nil _).symm
  | call s callee arguments =>
      show listUnits source .callArgument arguments =
        (arguments.map fun a => (a.span, a.unitsAs source .callArgument)).flatMap (·.2)
      rw [listUnits_eq_flatMap, List.flatMap_map]
  | array s items =>
      show listUnits source .arrayElement items =
        (items.map fun i => (i.span, i.unitsAs source .arrayElement)).flatMap (·.2)
      rw [listUnits_eq_flatMap, List.flatMap_map]
  | object s members => exact (List.append_nil _).symm
  | subscript s base index => exact (List.append_nil _).symm
  | other s => rfl

theorem mem_holeStretches {source : Text} {shape : Shape} {stop : Nat} {p : Stretch}
    {holes : List (Span × Expr)} : ∀ {start : Nat} {afterHole : Bool},
    p ∈ holeStretches source shape start stop afterHole holes ↔
      (∃ g ∈ segments start stop afterHole holes, p = (g.span, g.units source)) ∨
        ∃ h ∈ holes, p = (h.1, h.2.unitsAs source shape) := by
  induction holes with
  | nil =>
      intro start afterHole
      simp [holeStretches, segments, Segment.units]
  | cons h holes ih =>
      intro start afterHole
      obtain ⟨span, e⟩ := h
      simp only [holeStretches, segments, List.mem_cons, ih, exists_eq_or_imp, Segment.units]
      grind

/-! ## Rows of stretches -/

/-- Units one behind the other, between two offsets. -/
structure Lies (lo hi : Nat) (us : List ClassUnit) : Prop where
  inside : ∀ u ∈ us, lo ≤ u.span.start ∧ u.span.start ≤ u.span.stop ∧ u.span.stop ≤ hi
  ordered : us.Pairwise fun u v => u.span.stop ≤ v.span.start

namespace Lies

variable {lo hi : Nat} {us : List ClassUnit}

theorem nil (lo hi : Nat) : Lies lo hi [] := ⟨by simp, .nil⟩

theorem mono {lo' hi' : Nat} (h : Lies lo hi us) (hlo : lo' ≤ lo) (hhi : hi ≤ hi') :
    Lies lo' hi' us := by
  refine ⟨fun u hu => ?_, h.ordered⟩
  have := h.inside u hu
  omega

theorem single {u : ClassUnit} (h : Span.Row lo hi [u.span]) : Lies lo hi [u] := by
  refine ⟨fun v hv => ?_, List.pairwise_singleton _ _⟩
  obtain rfl := List.mem_singleton.mp hv
  exact h

/-- Stretches in a row. -/
theorem flatMap {ps : List Stretch} (hrow : Span.Row lo hi (ps.map (·.1)))
    (h : ∀ p ∈ ps, Lies p.1.start p.1.stop p.2) : Lies lo hi (ps.flatMap (·.2)) := by
  constructor
  · intro u hu
    obtain ⟨p, hp, hu⟩ := List.mem_flatMap.mp hu
    have hunit := (h p hp).inside u hu
    have hpart := hrow.inside (List.mem_map_of_mem hp)
    omega
  · refine List.pairwise_flatMap.mpr ⟨fun p hp => (h p hp).ordered, ?_⟩
    refine (List.pairwise_map.mp hrow.pairwise).imp_of_mem ?_
    intro p q hp hq hpq u hu v hv
    have hunit := (h p hp).inside u hu
    have hunit' := (h q hq).inside v hv
    omega

end Lies

/-- One stretch in another: what is found in the whole is found in the part or has nothing in common
with it. -/
structure Stretch.Holds (whole part : Stretch) : Prop where
  start : whole.1.start ≤ part.1.start
  stop : part.1.stop ≤ whole.1.stop
  units : part.2 ⊆ whole.2
  apart : ∀ u ∈ whole.2, u ∈ part.2 ∨ u.span.Separate part.1

namespace Stretch.Holds

variable {p q r : Stretch}

theorem refl (p : Stretch) : p.Holds p :=
  ⟨Nat.le_refl _, Nat.le_refl _, List.Subset.refl _, fun _ hu => .inl hu⟩

theorem trans (h : p.Holds q) (h' : q.Holds r) : p.Holds r := by
  refine ⟨Nat.le_trans h.start h'.start, Nat.le_trans h'.stop h.stop,
    List.Subset.trans h'.units h.units, fun u hu => ?_⟩
  rcases h.apart u hu with hu | hu | hu
  · exact h'.apart u hu
  · exact .inr (.inl (Nat.le_trans hu h'.start))
  · exact .inr (.inr (Nat.le_trans h'.stop hu))

/-- A stretch of a row. -/
theorem of_mem {ps : List Stretch} {s : Span} (hrow : Span.Row s.start s.stop (ps.map (·.1)))
    (h : ∀ p ∈ ps, Lies p.1.start p.1.stop p.2) (hp : p ∈ ps) :
    Stretch.Holds (s, ps.flatMap (·.2)) p := by
  have hinside := hrow.inside (List.mem_map_of_mem hp)
  refine ⟨hinside.1, hinside.2.2, fun u hu => List.mem_flatMap.mpr ⟨p, hp, hu⟩, fun u hu => ?_⟩
  obtain ⟨q, hq, hu⟩ := List.mem_flatMap.mp hu
  by_cases hpq : q = p
  · exact .inl (hpq ▸ hu)
  · -- another stretch of the row, and the unit is in it
    right
    have hunit := (h q hq).inside u hu
    have hrow' : ps.Pairwise fun a b => a.1.Separate b.1 :=
      (List.pairwise_map.mp hrow.pairwise).imp .inl
    rcases Span.Separate.of_pairwise hrow' hq hp hpq with hsep | hsep
    · exact .inl (by omega)
    · exact .inr (by omega)

end Stretch.Holds

/-! ## Objects -/

/-- If all members can be moved, there is an entry for each of them. -/
theorem forall₂_of_mapM {ms : List Member} {es : List Entry} (h : ms.mapM entryOf? = some es) :
    List.Forall₂ (fun m e => entryOf? m = some e) ms es := by
  induction ms generalizing es with
  | nil =>
      obtain rfl := Option.some.inj h
      exact .nil
  | cons m ms ih =>
      simp only [List.mapM_cons, Option.bind_eq_bind, Option.bind_eq_some_iff, Option.pure_def,
        Option.some.injEq] at h
      obtain ⟨e, he, rest, hrest, rfl⟩ := h
      exact .cons he (ih hrest)

theorem map_span_of_mapM {ms : List Member} {es : List Entry} (h : ms.mapM entryOf? = some es) :
    es.map (·.span) = ms.map Member.span := by
  have hall := forall₂_of_mapM h
  clear h
  induction hall with
  | nil => rfl
  | cons he _ ih => rw [List.map_cons, List.map_cons, ih, span_of_entryOf? he]

/-- The range of some entries in a row. -/
theorem row_region {es : List Entry} (hne : es ≠ []) : ∀ {lo hi : Nat},
    Span.Row lo hi (es.map (·.span)) →
    Span.Row lo hi [Entry.region es] ∧ ∀ e ∈ es,
      (Entry.region es).start ≤ e.span.start ∧ e.span.stop ≤ (Entry.region es).stop := by
  induction es with
  | nil => exact absurd rfl hne
  | cons a es ih =>
      intro lo hi hrow
      obtain ⟨hstart, hforward, hrest⟩ := hrow
      dsimp only at hstart hforward
      cases es with
      | nil =>
          refine ⟨⟨hstart, hforward, hrest⟩, fun e he => ?_⟩
          obtain rfl := List.mem_singleton.mp he
          exact ⟨Nat.le_refl _, Nat.le_refl _⟩
      | cons b es =>
          obtain ⟨⟨hfirst, hforward', hlast⟩, hinside⟩ := ih (by simp) hrest
          dsimp only at hfirst
          have hle : (Entry.region (b :: es)).stop ≤ hi := hlast
          rw [Entry.region_cons_cons]
          dsimp only
          refine ⟨⟨hstart, by dsimp only; omega, hle⟩, fun e he => ?_⟩
          rcases List.mem_cons.mp he with rfl | he
          · exact ⟨Nat.le_refl _, by omega⟩
          · have := hinside e he
            omega

theorem lies_stringUnits (shape : Shape) (s : Span) (escaped : Bool) :
    Lies s.start s.stop (stringUnits shape s escaped) := by
  have hblock : Block s.start s.stop (stringUnits shape s escaped) [] :=
    block_stringUnits shape escaped
  refine ⟨fun u hu => ?_, hblock.ordered⟩
  have := hblock.inside u hu
  omega

theorem lies_keyUnits {m : Member}
    (h : ∀ p k v, m = .pair p k v → Span.Row p.start p.stop [k.span, v.span]) :
    Lies m.span.start m.span.stop (keyUnits m) := by
  unfold keyUnits
  split
  · rename_i p s escaped v
    obtain ⟨hstart, -, hrest⟩ := h _ _ _ rfl
    exact (lies_stringUnits .objectKey s escaped).mono hstart hrest.le
  · exact .nil _ _

theorem lies_objectUnits {lo hi : Nat} {ms : List Member}
    (hrow : Span.Row lo hi (ms.map Member.span))
    (hpairs : ∀ p k v, Member.pair p k v ∈ ms → Span.Row p.start p.stop [k.span, v.span]) :
    Lies lo hi (objectUnits ms) := by
  unfold objectUnits
  split
  · exact .nil _ _
  · rename_i es hne hes
    rw [← map_span_of_mapM hes] at hrow
    exact .single (row_region (fun hnil => hne (hnil ▸ rfl)) hrow).1
  · have hmap : ms.flatMap keyUnits = (ms.map fun m => (m.span, keyUnits m)).flatMap (·.2) := by
      rw [List.flatMap_map]
    rw [hmap]
    refine Lies.flatMap ?_ ?_
    · rw [List.map_map]
      exact hrow
    · intro p hp
      obtain ⟨m, hm, rfl⟩ := List.mem_map.mp hp
      exact lies_keyUnits fun p k v heq => hpairs p k v (heq ▸ hm)

/-! ## Expressions -/

theorem lies_segment (source : Text) (g : Segment) :
    Lies g.span.start g.span.stop (g.units source) := by
  unfold Segment.units segmentUnits
  split
  · exact .nil _ _
  · rename_i text htext
    split
    · exact .nil _ _
    · have hbounds := Text.bounds_of_slice? htext
      exact .single ⟨Nat.le_refl _, by simp only [ClassUnit.span]; omega, Nat.le_refl _⟩

theorem row_holeStretches (source : Text) (shape : Shape) {stop : Nat}
    {holes : List (Span × Expr)} : ∀ {start : Nat} (afterHole : Bool),
    Span.Row start stop (holes.map (·.1)) →
    Span.Row start stop ((holeStretches source shape start stop afterHole holes).map (·.1)) := by
  induction holes with
  | nil =>
      intro start afterHole hrow
      exact ⟨Nat.le_refl _, hrow, Nat.le_refl _⟩
  | cons h holes ih =>
      intro start afterHole hrow
      obtain ⟨hstart, hforward, hrest⟩ := hrow
      exact ⟨Nat.le_refl _, hstart, Nat.le_refl _, hforward, ih true hrest⟩

/-- The stretches of a well-formed expression are in a row. -/
theorem row_stretches {e : Expr} (h : e.WellFormed) (source : Text) (shape : Shape) :
    Span.Row e.span.start e.span.stop ((e.stretches source shape).map (·.1)) := by
  cases h with
  | string hs => exact ⟨Nat.le_refl _, hs, Nat.le_refl _⟩
  | template hrow =>
      exact (row_holeStretches source shape false hrow).mono (Nat.le_succ _) (Nat.sub_le _ _)
  | paren hrow => exact hrow
  | wrapped hrow => exact hrow
  | empty hs => exact hs
  | @binary s op left right hrow =>
      cases op with
      | plus => exact hrow
      | fallback => exact hrow
      | guarded => exact hrow
      | other => exact hrow
  | ternary hrow => exact hrow
  | @call s callee arguments hrow =>
      show Span.Row s.start s.stop (callee.span :: (arguments.map _).map _)
      rw [List.map_map]
      exact hrow
  | @array s items hrow =>
      show Span.Row s.start s.stop ((items.map _).map _)
      rw [List.map_map]
      exact hrow
  | object hrow => exact ⟨Nat.le_refl _, hrow.le, Nat.le_refl _⟩
  | subscript hrow => exact hrow
  | other hs => exact hs

theorem lies_of_stretches {e : Expr} (h : e.WellFormed) {source : Text} {shape : Shape}
    (hparts : ∀ p ∈ e.stretches source shape, Lies p.1.start p.1.stop p.2) :
    Lies e.span.start e.span.stop (e.unitsAs source shape) := by
  rw [unitsAs_eq_flatMap]
  exact .flatMap (row_stretches h source shape) hparts

/-- Of an indexed object, with or without parentheses, the keys are taken. -/
theorem unitsAs_indexed (source : Text) (shape : Shape) (s : Span) (index : Expr) {base : Expr}
    {s' : Span} {members : List Member} (h : base.unparen = .object s' members) :
    (Expr.subscript s base index).unitsAs source shape = objectUnits members := by
  rw [Expr.unitsAs, h]

/-- From anything else that is indexed nothing is taken. -/
theorem unitsAs_subscript (source : Text) (shape : Shape) (s : Span) (base index : Expr) :
    (Expr.subscript s base index).unitsAs source shape = [] ∨
      ∃ s' members, base.unparen = .object s' members ∧
        (Expr.subscript s base index).unitsAs source shape = objectUnits members := by
  cases hbase : base.unparen with
  | object s' members => exact .inr ⟨s', members, rfl, unitsAs_indexed source shape s index hbase⟩
  | _ =>
      left
      rw [Expr.unitsAs, hbase]

/-- In each stretch of a well-formed expression the units are one behind the other. -/
theorem lies_stretches {e : Expr} (h : e.WellFormed) (source : Text) : ∀ shape,
    ∀ p ∈ e.stretches source shape, Lies p.1.start p.1.stop p.2 := by
  induction h with
  | @string s escaped =>
      intro shape p hp
      obtain rfl := List.mem_singleton.mp hp
      exact lies_stringUnits shape s escaped
  | template _ hinner hholes ih =>
      intro shape p hp
      rcases mem_holeStretches.mp hp with ⟨g, -, rfl⟩ | ⟨h, hh, rfl⟩
      · exact lies_segment source g
      · obtain ⟨hstart, -, hstop⟩ := hinner h hh
        exact (lies_of_stretches (hholes h hh) (ih h hh shape)).mono hstart hstop
  | paren _ hinner ih =>
      intro shape p hp
      obtain rfl := List.mem_singleton.mp hp
      exact lies_of_stretches hinner (ih shape)
  | wrapped _ hinner ih =>
      intro shape p hp
      obtain rfl := List.mem_singleton.mp hp
      exact lies_of_stretches hinner (ih shape)
  | empty =>
      intro shape p hp
      cases hp
  | @binary s op left right _ hleft hright ihleft ihright =>
      intro shape p hp
      have hl := lies_of_stretches hleft (ihleft shape)
      have hr := lies_of_stretches hright (ihright shape)
      cases op with
      | plus =>
          rcases List.mem_pair.mp hp with rfl | rfl
          · exact hl
          · exact hr
      | fallback =>
          rcases List.mem_pair.mp hp with rfl | rfl
          · exact hl
          · exact hr
      | guarded =>
          rcases List.mem_pair.mp hp with rfl | rfl
          · exact .nil _ _
          · exact hr
      | other =>
          rcases List.mem_pair.mp hp with rfl | rfl
          · exact .nil _ _
          · exact .nil _ _
  | ternary _ _ hconsequence halternative _ ihconsequence ihalternative =>
      intro shape p hp
      rcases List.mem_cons.mp hp with rfl | hp
      · exact .nil _ _
      · rcases List.mem_pair.mp hp with rfl | rfl
        · exact lies_of_stretches hconsequence (ihconsequence .ternaryBranch)
        · exact lies_of_stretches halternative (ihalternative .ternaryBranch)
  | call _ _ harguments _ ih =>
      intro shape p hp
      rcases List.mem_cons.mp hp with rfl | hp
      · exact .nil _ _
      · obtain ⟨a, ha, rfl⟩ := List.mem_map.mp hp
        exact lies_of_stretches (harguments a ha) (ih a ha .callArgument)
  | array _ hitems ih =>
      intro shape p hp
      obtain ⟨i, hi, rfl⟩ := List.mem_map.mp hp
      exact lies_of_stretches (hitems i hi) (ih i hi .arrayElement)
  | object hrow hpairs =>
      intro shape p hp
      obtain rfl := List.mem_singleton.mp hp
      exact lies_objectUnits hrow hpairs
  | @subscript s base index _ hbase _ ih =>
      intro shape p hp
      rcases List.mem_pair.mp hp with rfl | rfl
      · rcases unitsAs_subscript source shape s base index with hunits | ⟨s', ms, hobj, hunits⟩
        · exact hunits ▸ .nil _ _
        · -- the object that is indexed has the same units on its own
          have hlies := lies_of_stretches hbase (ih shape)
          rw [← unitsAs_unparen, hobj] at hlies
          exact hunits ▸ hlies
      · exact .nil _ _
  | other =>
      intro shape p hp
      cases hp

theorem lies_unitsAs {e : Expr} (h : e.WellFormed) (source : Text) (shape : Shape) :
    Lies e.span.start e.span.stop (e.unitsAs source shape) :=
  lies_of_stretches h (lies_stretches h source shape)

/-- An expression holds each of its stretches. -/
theorem Expr.WellFormed.holds {e : Expr} (h : e.WellFormed) (source : Text) (shape : Shape)
    {p : Stretch} (hp : p ∈ e.stretches source shape) :
    Stretch.Holds (e.span, e.unitsAs source shape) p := by
  rw [unitsAs_eq_flatMap]
  exact .of_mem (row_stretches h source shape) (lies_stretches h source shape) hp

/-! ## The walk -/

theorem Expr.WellFormed.holds_unparen {e : Expr} (h : e.WellFormed) (source : Text)
    (shape : Shape) :
    Stretch.Holds (e.span, e.unitsAs source shape)
      (e.unparen.span, e.unparen.unitsAs source shape) := by
  induction h with
  | paren hrow hinner ih =>
      exact ((Expr.WellFormed.paren hrow hinner).holds source shape
        (List.mem_singleton_self _)).trans ih
  | _ => exact .refl _

/-- **What the walk reaches holds its own part of the units.** The other units of the tree have
nothing in common with it. -/
theorem Expr.WellFormed.holds_of_reaches {e e' : Expr} (h : e.WellFormed) (hreach : e.Reaches e')
    (source : Text) : ∀ shape, ∃ shape',
      Stretch.Holds (e.span, e.unitsAs source shape) (e'.span, e'.unitsAs source shape') := by
  induction hreach with
  | refl e =>
      intro shape
      exact ⟨shape, .refl _⟩
  | @hole s holes hole e hmem _ ih =>
      intro shape
      obtain ⟨shape', hrest⟩ := ih (h.of_reaches (.hole hmem (.refl _))) shape
      have hpart := h.holds source shape (mem_holeStretches.mpr (.inr ⟨hole, hmem, rfl⟩))
      -- the stretch is the hole with its braces, the expression stands between them
      have hfit : Stretch.Holds (hole.1, hole.2.unitsAs source shape)
          (hole.2.span, hole.2.unitsAs source shape) := by
        cases h with
        | template _ hinner _ =>
            obtain ⟨hstart, -, hstop⟩ := hinner hole hmem
            exact ⟨hstart, hstop, List.Subset.refl _, fun _ hu => .inl hu⟩
      exact ⟨shape', hpart.trans (hfit.trans hrest)⟩
  | paren _ ih =>
      intro shape
      obtain ⟨shape', hrest⟩ := ih (h.of_reaches (.paren (.refl _))) shape
      exact ⟨shape', (h.holds source shape (List.mem_singleton_self _)).trans hrest⟩
  | wrapped _ ih =>
      intro shape
      obtain ⟨shape', hrest⟩ := ih (h.of_reaches (.wrapped (.refl _))) shape
      exact ⟨shape', (h.holds source shape (List.mem_singleton_self _)).trans hrest⟩
  | left hop _ ih =>
      intro shape
      obtain ⟨shape', hrest⟩ := ih (h.of_reaches (.left hop (.refl _))) shape
      rcases hop with rfl | rfl
      · exact ⟨shape', (h.holds source shape List.mem_cons_self).trans hrest⟩
      · exact ⟨shape', (h.holds source shape List.mem_cons_self).trans hrest⟩
  | @right s op left right e hop _ ih =>
      intro shape
      obtain ⟨shape', hrest⟩ := ih (h.of_reaches (.right hop (.refl _))) shape
      have hmem : (right.span, right.unitsAs source shape) ∈
          (Expr.binary s op left right).stretches source shape := by
        cases op with
        | plus => exact List.mem_pair.mpr (.inr rfl)
        | fallback => exact List.mem_pair.mpr (.inr rfl)
        | guarded => exact List.mem_pair.mpr (.inr rfl)
        | other => exact absurd rfl hop
      exact ⟨shape', (h.holds source shape hmem).trans hrest⟩
  | consequence _ ih =>
      intro shape
      obtain ⟨shape', hrest⟩ := ih (h.of_reaches (.consequence (.refl _))) .ternaryBranch
      exact ⟨shape', (h.holds source shape (.tail _ List.mem_cons_self)).trans hrest⟩
  | alternative _ ih =>
      intro shape
      obtain ⟨shape', hrest⟩ := ih (h.of_reaches (.alternative (.refl _))) .ternaryBranch
      exact ⟨shape', (h.holds source shape (.tail _ (.tail _ List.mem_cons_self))).trans hrest⟩
  | argument hmem _ ih =>
      intro shape
      obtain ⟨shape', hrest⟩ := ih (h.of_reaches (.argument hmem (.refl _))) .callArgument
      exact ⟨shape',
        (h.holds source shape (.tail _ (List.mem_map_of_mem hmem))).trans hrest⟩
  | item hmem _ ih =>
      intro shape
      obtain ⟨shape', hrest⟩ := ih (h.of_reaches (.item hmem (.refl _))) .arrayElement
      exact ⟨shape', (h.holds source shape (List.mem_map_of_mem hmem)).trans hrest⟩
  | @map s s' base index members hbase =>
      intro shape
      have hpart := h.holds source shape List.mem_cons_self
      have hunits : (Expr.subscript s base index).unitsAs source shape =
          base.unitsAs source shape := by
        rw [← unitsAs_unparen source shape base, unitsAs_indexed source shape s index hbase, hbase]
        rfl
      have hobject : base.WellFormed := by
        cases h with
        | subscript _ hobject _ => exact hobject
      have hrest := hobject.holds_unparen source shape
      rw [hbase, ← hunits] at hrest
      exact ⟨shape, hpart.trans hrest⟩

/-- From what is barred nothing is taken. -/
theorem mem_stretches_of_bars {e : Expr} {b : Span} (h : e.Bars b) (source : Text)
    (shape : Shape) : (b, []) ∈ e.stretches source shape := by
  cases e with
  | binary s op left right =>
      cases op with
      | guarded =>
          obtain rfl : b = left.span := h
          exact List.mem_cons_self
      | _ => exact absurd h id
  | ternary s condition consequence alternative =>
      obtain rfl : b = condition.span := h
      exact List.mem_cons_self
  | call s callee arguments =>
      obtain rfl : b = callee.span := h
      exact List.mem_cons_self
  | subscript s base index =>
      obtain rfl : b = index.span := h
      exact List.mem_pair.mpr (.inr rfl)
  | _ => exact absurd h id

/-! ## Where a unit comes from -/

/-- The units that an expression has of its own, and not from its parts. -/
def Expr.Owns (source : Text) (u : ClassUnit) : Expr → Prop
  | .string s escaped => ∃ shape, u ∈ stringUnits shape s escaped
  | .template s holes => ∃ g ∈ segments (s.start + 1) (s.stop - 1) false holes, u ∈ g.units source
  | .object _ members => u ∈ objectUnits members
  | _ => False

/-- **Every unit belongs to a literal or an object that the walk reaches.** -/
theorem exists_owner {e : Expr} (h : e.WellFormed) {source : Text} {u : ClassUnit} :
    ∀ {shape : Shape}, u ∈ e.unitsAs source shape →
      ∃ node, e.Reaches node ∧ node.Owns source u := by
  induction h with
  | string =>
      intro shape hu
      exact ⟨_, .refl _, shape, hu⟩
  | template _ _ _ ih =>
      intro shape hu
      rw [unitsAs_eq_flatMap] at hu
      obtain ⟨p, hp, hu⟩ := List.mem_flatMap.mp hu
      rcases mem_holeStretches.mp hp with ⟨g, hg, rfl⟩ | ⟨h, hh, rfl⟩
      · exact ⟨_, .refl _, g, hg, hu⟩
      · obtain ⟨node, hreach, howns⟩ := ih h hh hu
        exact ⟨node, .hole hh hreach, howns⟩
  | paren _ _ ih =>
      intro shape hu
      obtain ⟨node, hreach, howns⟩ := ih hu
      exact ⟨node, .paren hreach, howns⟩
  | wrapped _ _ ih =>
      intro shape hu
      obtain ⟨node, hreach, howns⟩ := ih hu
      exact ⟨node, .wrapped hreach, howns⟩
  | empty =>
      intro shape hu
      cases hu
  | @binary s op left right _ _ _ ihleft ihright =>
      intro shape hu
      have hright (hop : op ≠ .other) (hu : u ∈ right.unitsAs source shape) :
          ∃ node, (Expr.binary s op left right).Reaches node ∧ node.Owns source u := by
        obtain ⟨node, hreach, howns⟩ := ihright hu
        exact ⟨node, .right hop hreach, howns⟩
      have hleft (hop : op = .plus ∨ op = .fallback) (hu : u ∈ left.unitsAs source shape) :
          ∃ node, (Expr.binary s op left right).Reaches node ∧ node.Owns source u := by
        obtain ⟨node, hreach, howns⟩ := ihleft hu
        exact ⟨node, .left hop hreach, howns⟩
      cases op with
      | plus => exact (List.mem_append.mp hu).elim (hleft (.inl rfl)) (hright nofun)
      | fallback => exact (List.mem_append.mp hu).elim (hleft (.inr rfl)) (hright nofun)
      | guarded => exact hright nofun hu
      | other => cases hu
  | ternary _ _ _ _ _ ihconsequence ihalternative =>
      intro shape hu
      rcases List.mem_append.mp hu with hu | hu
      · obtain ⟨node, hreach, howns⟩ := ihconsequence hu
        exact ⟨node, .consequence hreach, howns⟩
      · obtain ⟨node, hreach, howns⟩ := ihalternative hu
        exact ⟨node, .alternative hreach, howns⟩
  | @call s callee arguments _ _ _ _ ih =>
      intro shape hu
      have hu : u ∈ listUnits source .callArgument arguments := hu
      rw [listUnits_eq_flatMap] at hu
      obtain ⟨a, ha, hu⟩ := List.mem_flatMap.mp hu
      obtain ⟨node, hreach, howns⟩ := ih a ha hu
      exact ⟨node, .argument ha hreach, howns⟩
  | @array s items _ _ ih =>
      intro shape hu
      have hu : u ∈ listUnits source .arrayElement items := hu
      rw [listUnits_eq_flatMap] at hu
      obtain ⟨i, hi, hu⟩ := List.mem_flatMap.mp hu
      obtain ⟨node, hreach, howns⟩ := ih i hi hu
      exact ⟨node, .item hi hreach, howns⟩
  | object =>
      intro shape hu
      exact ⟨_, .refl _, hu⟩
  | @subscript s base index =>
      intro shape hu
      rcases unitsAs_subscript source shape s base index with hunits | ⟨s', ms, hobj, hunits⟩
      · rw [hunits] at hu
        cases hu
      · rw [hunits] at hu
        exact ⟨_, .map hobj, hu⟩
  | other =>
      intro shape hu
      cases hu

/-- What a reached part owns is found in the whole, perhaps in another position. -/
theorem exists_unit_of_owner {e node : Expr} (h : e.WellFormed) (hreach : e.Reaches node)
    {source : Text} {u : ClassUnit} (howns : node.Owns source u) (shape : Shape) :
    ∃ v ∈ e.unitsAs source shape, v.span = u.span := by
  obtain ⟨shape', hholds⟩ := h.holds_of_reaches hreach source shape
  suffices hnode : ∃ v ∈ node.unitsAs source shape', v.span = u.span by
    obtain ⟨v, hv, hspan⟩ := hnode
    exact ⟨v, hholds.units hv, hspan⟩
  cases node with
  | string s escaped =>
      -- the position decides how a string is quoted, not where it is
      obtain ⟨shape'', hu⟩ := howns
      show ∃ v ∈ stringUnits shape' s escaped, v.span = u.span
      unfold stringUnits at hu ⊢
      cases hcontent : content? s escaped with
      | none => simp [hcontent] at hu
      | some c =>
          simp only [hcontent, Option.map_some, Option.toList_some, List.mem_singleton] at hu ⊢
          exact ⟨_, rfl, by rw [hu]; rfl⟩
  | template s holes =>
      obtain ⟨g, hg, hu⟩ := howns
      refine ⟨u, ?_, rfl⟩
      rw [unitsAs_eq_flatMap]
      exact List.mem_flatMap.mpr ⟨_, mem_holeStretches.mpr (.inl ⟨g, hg, rfl⟩), hu⟩
  | object s members => exact ⟨u, howns, rfl⟩
  | _ => exact absurd howns id

theorem exists_quotes_of_owner {node : Expr} (h : node.WellFormed) {source : Text} {c : ClassSpan}
    (howns : node.Owns source (.list c)) :
    ∃ q, node.Quotes q ∧ q.start < c.span.start ∧ c.span.stop < q.stop := by
  have hstring {shape : Shape} {s : Span} {escaped : Bool}
      (hc : .list c ∈ stringUnits shape s escaped) :
      s.start < c.span.start ∧ c.span.stop < s.stop := by
    have hblock : Block s.start s.stop (stringUnits shape s escaped) [] :=
      block_stringUnits shape escaped
    obtain ⟨hstart, -, hstop⟩ := hblock.inside _ hc
    exact ⟨hstart, hstop⟩
  cases h with
  | string =>
      obtain ⟨shape, hc⟩ := howns
      exact ⟨_, rfl, hstring hc⟩
  | @template s holes hrow =>
      obtain ⟨g, hg, hc⟩ := howns
      have hmem : g.span ∈ (holeStretches source .plainString (s.start + 1) (s.stop - 1) false
          holes).map (·.1) :=
        List.mem_map.mpr ⟨_, mem_holeStretches.mpr (.inl ⟨g, hg, rfl⟩), rfl⟩
      have hspan := (row_holeStretches source .plainString false hrow).inside hmem
      have hunit := (lies_segment source g).inside _ hc
      have hle := hrow.le
      refine ⟨s, rfl, ?_, ?_⟩
      · have : g.span.start ≤ c.span.start := hunit.1
        omega
      · have : c.span.stop ≤ g.span.stop := hunit.2.2
        omega
  | @object s members =>
      have hc : ClassUnit.list c ∈ objectUnits members := howns
      unfold objectUnits at hc
      split at hc
      · cases hc
      · simp at hc
      · obtain ⟨m, hm, hc⟩ := List.mem_flatMap.mp hc
        unfold keyUnits at hc
        split at hc
        · rename_i p q escaped v
          exact ⟨q, ⟨p, escaped, v, hm⟩, hstring hc⟩
        · cases hc
  | _ => exact absurd howns id

/-- **Units of a well-formed tree.** They are in order, without overlap and inside the tree. A class
list stands strictly between the quotes of a literal that the walk reaches, and no unit touches a
condition, a callee or an index that the walk passes. Each reached literal and object has its units
among them, so none of this is for want of units. -/
theorem units_in_place {e : Expr} (h : e.WellFormed) (source : Text) :
    (e.units source).Pairwise (fun u v => u.span.stop ≤ v.span.start) ∧
    (∀ u ∈ e.units source, e.span.start ≤ u.span.start ∧ u.span.start ≤ u.span.stop ∧
      u.span.stop ≤ e.span.stop) ∧
    (∀ c, .list c ∈ e.units source → ∃ node q, e.Reaches node ∧ node.Quotes q ∧
      q.start < c.span.start ∧ c.span.stop < q.stop) ∧
    (∀ node b, e.Reaches node → node.Bars b → ∀ u ∈ e.units source, u.span.Separate b) ∧
    ∀ node u, e.Reaches node → node.Owns source u → ∃ v ∈ e.units source, v.span = u.span := by
  have hlies := lies_unitsAs h source .plainString
  refine ⟨hlies.ordered, hlies.inside, ?_, ?_, ?_⟩
  · intro c hc
    obtain ⟨node, hreach, howns⟩ := exists_owner h hc
    obtain ⟨q, hq, hinside⟩ := exists_quotes_of_owner (h.of_reaches hreach) howns
    exact ⟨node, q, hreach, hq, hinside⟩
  · intro node b hreach hbars u hu
    obtain ⟨shape, hholds⟩ := h.holds_of_reaches hreach source .plainString
    have hbar := (h.of_reaches hreach).holds source shape (mem_stretches_of_bars hbars source shape)
    -- a barred range holds no units, so each unit of the tree is elsewhere
    rcases (hholds.trans hbar).apart u hu with hu | hu
    · cases hu
    · exact hu
  · intro node u hreach howns
    exact exists_unit_of_owner h hreach howns .plainString

def branchingText : Text := "on ? cn('b a', x && `d $\x7by\x7d c`) : \x7b'f e': 1\x7d[k]".toList

/-- A condition, a callee, a guard and an index, with units around each of them. -/
def branchingTree : Expr :=
  .ternary ⟨0, 47⟩ (.other ⟨0, 2⟩)
    (.call ⟨5, 31⟩ (.other ⟨5, 7⟩)
      [.string ⟨8, 13⟩ false,
        .binary ⟨15, 30⟩ .guarded (.other ⟨15, 16⟩)
          (.template ⟨20, 30⟩ [(⟨23, 27⟩, .other ⟨25, 26⟩)])])
    (.subscript ⟨34, 47⟩
      (.object ⟨34, 44⟩ [.pair ⟨35, 43⟩ (.string ⟨35, 40⟩ false) (.other ⟨42, 43⟩)])
      (.other ⟨45, 46⟩))

theorem wellFormed_branchingTree : branchingTree.WellFormed := by
  refine .ternary (by decide) (.other (by decide)) ?_ ?_
  · refine .call (by decide) (.other (by decide)) fun a ha => ?_
    rcases List.mem_pair.mp ha with rfl | rfl
    · exact .string (by decide)
    · refine .binary (by decide) (.other (by decide)) (.template (by decide) ?_ ?_)
      · intro h hh
        obtain rfl := List.mem_singleton.mp hh
        exact by decide
      · intro h hh
        obtain rfl := List.mem_singleton.mp hh
        exact .other (by decide)
  · refine .subscript (by decide) (.object (by decide) ?_ ?_) (.other (by decide))
    · intro p k v hm
      obtain ⟨rfl, rfl, rfl⟩ := Member.pair.inj (List.mem_singleton.mp hm)
      exact by decide
    · intro p k v hm
      obtain ⟨rfl, rfl, rfl⟩ := Member.pair.inj (List.mem_singleton.mp hm)
      exact .other (by decide)

theorem units_in_place_branching : branchingTree.WellFormed ∧
    (branchingTree.units branchingText).map (·.span) =
      [⟨9, 12⟩, ⟨21, 23⟩, ⟨27, 29⟩, ⟨35, 43⟩] ∧
    ∀ u ∈ branchingTree.units branchingText,
      u.span.Separate ⟨0, 2⟩ ∧ u.span.Separate ⟨5, 7⟩ ∧ u.span.Separate ⟨15, 16⟩ ∧
        u.span.Separate ⟨45, 46⟩ := by
  have hbars := (units_in_place wellFormed_branchingTree branchingText).2.2.2.1
  refine ⟨wellFormed_branchingTree, by decide +kernel, fun u hu => ⟨?_, ?_, ?_, ?_⟩⟩
  · exact hbars _ ⟨0, 2⟩ (.refl _) rfl u hu
  · exact hbars _ ⟨5, 7⟩ (.consequence (.refl _)) rfl u hu
  · exact hbars _ ⟨15, 16⟩ (.consequence (.argument (.tail _ List.mem_cons_self) (.refl _))) rfl u
      hu
  · exact hbars _ ⟨45, 46⟩ (.alternative (.refl _)) rfl u hu

end ClassSort.Script
