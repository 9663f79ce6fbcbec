import ClassSort.Proofs.Conservation
import ClassSort.Proofs.TreeShape

/-!
# Where the units of an expression lie

A `Block` is a stretch of a script with the units that were found in it and the elements
that were passed over. Its units lie strictly inside, one behind the other, and each
element keeps **apart** from each unit: it is before it, behind it, or in the value of an
entry. Only entries can hold an element, because they are the only units that are more
than the text of one string or one part of a template.

Blocks that follow each other form one block. So the statement about a whole expression
needs nothing but the blocks of its parts, in the order in which they stand, and a part
from which nothing is taken is a block without units.
-/

namespace ClassSort.Script

/-- An element has no byte in common with a unit, or is in the value of one of its
entries. -/
def Apart (el : Span) (u : ClassUnit) : Prop :=
  u.span.stop ≤ el.start ∨ el.stop ≤ u.span.start ∨
    u.span.start ≤ el.start ∧ el.stop ≤ u.span.stop ∧
      ∃ es, u = .entries es ∧ ∃ e ∈ es, e.key.span.stop ≤ el.start ∧ el.stop ≤ e.span.stop

/-- Elements between two offsets. -/
def Within (lo hi : Nat) (els : List Span) : Prop := ∀ el ∈ els, lo ≤ el.start ∧ el.stop ≤ hi

/-- Units and elements between two offsets. -/
structure Block (lo hi : Nat) (us : List ClassUnit) (els : List Span) : Prop where
  inside : ∀ u ∈ us, lo < u.span.start ∧ u.span.start ≤ u.span.stop ∧ u.span.stop < hi
  ordered : us.Pairwise fun u v => u.span.stop ≤ v.span.start
  covers : Within lo hi els
  apart : ∀ el ∈ els, ∀ u ∈ us, Apart el u

namespace Block

variable {lo mid hi : Nat} {us vs : List ClassUnit} {els els' : List Span}

/-- A stretch from which nothing is taken. -/
theorem of_within (h : Within lo hi els) : Block lo hi [] els := ⟨by simp, .nil, h, by simp⟩

theorem nil (lo hi : Nat) : Block lo hi [] [] := of_within (by simp [Within])

theorem mono {lo' hi' : Nat} (h : Block lo hi us els) (hlo : lo' ≤ lo) (hhi : hi ≤ hi') :
    Block lo' hi' us els := by
  refine ⟨fun u hu => ?_, h.ordered, fun el hel => ?_, h.apart⟩
  · have := h.inside u hu
    omega
  · have := h.covers el hel
    omega

theorem append {lo' : Nat} (h : Block lo mid us els) (h' : Block lo' hi vs els') (hlo : lo ≤ lo')
    (hmid : mid ≤ lo') (hhi : mid ≤ hi) : Block lo hi (us ++ vs) (els ++ els') := by
  refine ⟨fun u hu => ?_, ?_, fun el hel => ?_, fun el hel u hu => ?_⟩
  · rcases List.mem_append.mp hu with hu | hu
    · have := h.inside u hu
      omega
    · have := h'.inside u hu
      omega
  · refine List.pairwise_append.mpr ⟨h.ordered, h'.ordered, fun u hu v hv => ?_⟩
    have := h.inside u hu
    have := h'.inside v hv
    omega
  · rcases List.mem_append.mp hel with hel | hel
    · have := h.covers el hel
      omega
    · have := h'.covers el hel
      omega
  · -- what is in different parts is apart because the parts are
    rcases List.mem_append.mp hel with hel | hel <;> rcases List.mem_append.mp hu with hu | hu
    · exact h.apart el hel u hu
    · have := h.covers el hel
      have := h'.inside u hu
      exact .inr (.inl (by omega))
    · have := h'.covers el hel
      have := h.inside u hu
      exact .inl (by omega)
    · exact h'.apart el hel u hu

/-- Taking only some of the units. -/
theorem sublist (h : Block lo hi us els) (hvs : vs.Sublist us) : Block lo hi vs els :=
  ⟨fun u hu => h.inside u (hvs.mem hu), h.ordered.sublist hvs, h.covers,
    fun el hel u hu => h.apart el hel u (hvs.mem hu)⟩

/-- Taking no unit. -/
theorem clear (h : Block lo hi us els) : Block lo hi [] els := h.sublist (List.nil_sublist us)

end Block

/-! ## Strings and templates -/

theorem block_stringUnits (shape : Shape) {s : Span} (escaped : Bool) :
    Block s.start s.stop (stringUnits shape s escaped) [] := by
  unfold stringUnits content?
  split
  · rename_i hcontent
    simp only [Bool.and_eq_true, decide_eq_true_eq] at hcontent
    refine ⟨?_, ?_, by simp [Within], by simp⟩
    · intro u hu
      simp only [Option.map_some, Option.toList_some, List.mem_singleton] at hu
      subst hu
      simp only [ClassUnit.span]
      omega
    · simp
  · exact .nil _ _

theorem block_segmentUnits (source : Text) {start stop lo hi : Nat} (after before : Bool)
    (hlo : lo < start) (hhi : stop < hi) :
    Block lo hi (segmentUnits source ⟨start, stop⟩ after before) [] := by
  unfold segmentUnits
  split
  · exact .nil _ _
  · rename_i text htext
    split
    · exact .nil _ _
    · have hforward := (Text.bounds_of_slice? htext).1
      refine ⟨?_, by simp, by simp [Within], by simp⟩
      intro u hu
      rw [List.mem_singleton] at hu
      subst hu
      simp only [ClassUnit.span]
      simp only at hforward
      omega

/-! ## Members -/

/-- A member between two offsets, with the elements in it. A key that can be moved is a
single lexeme, so the elements are behind it. -/
structure MemberBlock (lo hi : Nat) (m : Member) (els : List Span) : Prop where
  start : lo ≤ m.span.start
  forward : m.span.start < m.span.stop
  stop : m.span.stop ≤ hi
  keys : Block m.span.start m.span.stop (keyUnits m) els
  behind : ∀ e, entryOf? m = some e → ∀ el ∈ els, e.key.span.stop ≤ el.start
  formed : ∀ p k v, m = .pair p k v → Span.Row p.start p.stop [k.span, v.span] ∧ v.WellFormed

/-- Members that follow each other between two offsets. -/
inductive MemberRow : Nat → Nat → List Member → List Span → Prop
  | nil {lo hi : Nat} (h : lo ≤ hi) : MemberRow lo hi [] []
  | cons {lo mid hi : Nat} {m : Member} {ms : List Member} {els els' : List Span}
      (hm : MemberBlock lo mid m els) (hms : MemberRow mid hi ms els') :
      MemberRow lo hi (m :: ms) (els ++ els')

theorem span_of_entryOf? {m : Member} {e : Entry} (h : entryOf? m = some e) : e.span = m.span := by
  unfold entryOf? at h
  split at h
  · obtain ⟨k, -, rfl⟩ := Option.map_eq_some_iff.mp h
    rfl
  · exact absurd h (by simp)

namespace MemberRow

variable {lo hi : Nat} {ms : List Member} {els : List Span}

theorem mono {lo' hi' : Nat} (h : MemberRow lo hi ms els) (hlo : lo' ≤ lo) (hhi : hi ≤ hi') :
    MemberRow lo' hi' ms els := by
  induction h generalizing lo' with
  | nil h => exact .nil (by omega)
  | cons hm _ ih =>
      exact .cons ⟨Nat.le_trans hlo hm.start, hm.forward, hm.stop, hm.keys, hm.behind, hm.formed⟩
        (ih (Nat.le_refl _) hhi)

theorem le (h : MemberRow lo hi ms els) : lo ≤ hi := by
  induction h with
  | nil h => exact h
  | cons hm _ ih =>
      have := hm.start
      have := hm.forward
      have := hm.stop
      omega

theorem spans (h : MemberRow lo hi ms els) : Span.Row lo hi (ms.map Member.span) := by
  induction h with
  | nil h => exact h
  | cons hm hms ih => exact ⟨hm.start, Nat.le_of_lt hm.forward, ih.mono hm.stop (Nat.le_refl _)⟩

theorem formed (h : MemberRow lo hi ms els) {p : Span} {k : Key} {v : Expr}
    (hm : .pair p k v ∈ ms) : Span.Row p.start p.stop [k.span, v.span] ∧ v.WellFormed := by
  induction h with
  | nil h => exact absurd hm (by simp)
  | cons hfirst _ ih =>
      rcases List.mem_cons.mp hm with heq | hm
      · exact hfirst.formed p k v heq.symm
      · exact ih hm

/-- The string keys of the members, one by one. -/
theorem block_keyUnits (h : MemberRow lo hi ms els) : Block lo hi (ms.flatMap keyUnits) els := by
  induction h with
  | nil h => exact .nil _ _
  | cons hm hms ih =>
      rw [List.flatMap_cons]
      have hle := hms.le
      have hstart := hm.start
      have hforward := hm.forward
      have hstop := hm.stop
      exact (hm.keys.mono hstart hstop).append ih (by omega) (Nat.le_refl _) hle

/-- All members as entries: the range of the unit, and the entry that holds an element. -/
theorem entries (h : MemberRow lo hi ms els) {e : Entry} {es : List Entry}
    (hes : ms.mapM entryOf? = some (e :: es)) :
    lo ≤ e.span.start ∧ e.span.start ≤ (Entry.region (e :: es)).stop ∧
      (Entry.region (e :: es)).stop ≤ hi ∧
      ∀ el ∈ els, e.span.start ≤ el.start ∧ el.stop ≤ (Entry.region (e :: es)).stop ∧
        ∃ e' ∈ e :: es, e'.key.span.stop ≤ el.start ∧ el.stop ≤ e'.span.stop := by
  induction h generalizing e es with
  | nil h => exact absurd hes (by simp)
  | @cons lo mid hi m ms els els' hm hms ih =>
      simp only [List.mapM_cons, Option.bind_eq_bind, Option.bind_eq_some_iff, Option.pure_def,
        Option.some.injEq, List.cons.injEq] at hes
      obtain ⟨e₁, he, rest, hrest, rfl, rfl⟩ := hes
      have hspan := span_of_entryOf? he
      have hstart := hm.start
      have hforward := hm.forward
      have hstop := hm.stop
      have hhere : ∀ el ∈ els, e₁.span.start ≤ el.start ∧ el.stop ≤ e₁.span.stop ∧
          ∃ e' ∈ e₁ :: rest, e'.key.span.stop ≤ el.start ∧ el.stop ≤ e'.span.stop := by
        intro el hel
        obtain ⟨hafter, hbefore⟩ := hm.keys.covers el hel
        rw [← hspan] at hafter hbefore
        exact ⟨hafter, hbefore, e₁, List.mem_cons_self, hm.behind e₁ he el hel, hbefore⟩
      cases rest with
      | nil =>
          have hnone : els' = [] := by
            cases hms with
            | nil => rfl
            | cons _ _ =>
                simp only [List.mapM_cons, Option.bind_eq_bind, Option.bind_eq_some_iff,
                  Option.pure_def] at hrest
                obtain ⟨_, -, _, -, hcons⟩ := hrest
                exact absurd hcons (by simp)
          have hregion : Entry.region [e₁] = e₁.span := rfl
          subst hnone
          have hle := hms.le
          rw [hregion, List.append_nil]
          refine ⟨?_, ?_, ?_, hhere⟩ <;> rw [hspan] <;> omega
      | cons e₂ rest =>
          obtain ⟨hfirst, hforward', hlast, helements⟩ := ih hrest
          rw [Entry.region_cons_cons]
          dsimp only
          rw [← hspan] at hstart hforward hstop
          refine ⟨by omega, by omega, hlast, fun el hel => ?_⟩
          rcases List.mem_append.mp hel with hel | hel
          · obtain ⟨hafter, hbefore, hentry⟩ := hhere el hel
            exact ⟨hafter, by omega, hentry⟩
          · obtain ⟨hafter, hbefore, e', he', hkey⟩ := helements el hel
            exact ⟨by omega, hbefore, e', List.mem_cons_of_mem _ he', hkey⟩

/-- **The units of an object.** -/
theorem block_objectUnits (h : MemberRow lo hi ms els) {lo' hi' : Nat} (hlo : lo' < lo)
    (hhi : hi < hi') : Block lo' hi' (objectUnits ms) els := by
  have hkeys := (h.block_keyUnits).mono (Nat.le_of_lt hlo) (Nat.le_of_lt hhi)
  unfold objectUnits
  split
  · exact hkeys.clear
  · rename_i es hne hes
    cases es with
    | nil => exact absurd rfl hne
    | cons e es =>
        obtain ⟨hfirst, hforward, hlast, helements⟩ := h.entries hes
        refine ⟨?_, by simp, hkeys.covers, ?_⟩
        · intro u hu
          rw [List.mem_singleton] at hu
          subst hu
          simp only [ClassUnit.span, Entry.region_start]
          omega
        · intro el hel u hu
          rw [List.mem_singleton] at hu
          subst hu
          obtain ⟨hafter, hbefore, hentry⟩ := helements el hel
          refine .inr (.inr ⟨?_, hbefore, _, rfl, hentry⟩)
          simpa only [ClassUnit.span, Entry.region_start] using hafter
  · exact hkeys

end MemberRow

/-! ## Expressions -/

/-- A well-formed expression between two offsets, with the elements in it. -/
structure ExprBlock (lo hi : Nat) (e : Expr) (els : List Span) : Prop where
  start : lo ≤ e.span.start
  forward : e.span.start < e.span.stop
  stop : e.span.stop ≤ hi
  formed : e.WellFormed
  units : ∀ source shape, Block e.span.start e.span.stop (e.unitsAs source shape) els

namespace ExprBlock

variable {lo mid hi pos : Nat} {e : Expr} {els els' : List Span}

/-- What is known of an expression from which nothing is taken. -/
theorem clear (h : ExprBlock lo hi e els) : Block e.span.start e.span.stop [] els :=
  (h.units [] .plainString).clear

theorem covers (h : ExprBlock lo hi e els) : Within e.span.start e.span.stop els := h.clear.covers

theorem le (h : ExprBlock lo hi e els) : lo < hi := by
  have := h.start
  have := h.forward
  have := h.stop
  omega

/-- An expression in front of an offset. -/
theorem before (h : ExprBlock lo hi e els) : e.span.start < hi ∧ Within e.span.start hi els := by
  have hforward := h.forward
  have hstop := h.stop
  refine ⟨by omega, fun el hel => ?_⟩
  have := h.covers el hel
  omega

theorem mono {lo' hi' : Nat} (h : ExprBlock lo hi e els) (hlo : lo' ≤ lo) (hhi : hi ≤ hi') :
    ExprBlock lo' hi' e els :=
  ⟨Nat.le_trans hlo h.start, h.forward, Nat.le_trans h.stop hhi, h.formed, h.units⟩

theorem of_span {a b : Nat} (hspan : e.span = ⟨a, b⟩) (hlo : lo ≤ a) (hab : a < b) (hhi : b ≤ hi)
    (hformed : e.WellFormed)
    (h : ∀ source shape, Block a b (e.unitsAs source shape) els) : ExprBlock lo hi e els := by
  refine ⟨?_, ?_, ?_, hformed, ?_⟩ <;> rw [hspan]
  · exact hlo
  · exact hab
  · exact hhi
  · exact h

/-- An expression that is passed over. -/
theorem other {a b : Nat} (hlo : lo ≤ a) (hab : a < b) (hhi : b ≤ hi) (hels : Within a b els) :
    ExprBlock lo hi (.other ⟨a, b⟩) els := by
  refine of_span rfl hlo hab hhi (.other (Nat.le_of_lt hab)) fun source shape => ?_
  show Block a b [] els
  exact .of_within hels

theorem string {s : Span} (hlo : lo ≤ s.start) (hforward : s.start < s.stop) (hhi : s.stop ≤ hi)
    (escaped : Bool) : ExprBlock lo hi (.string s escaped) [] := by
  refine of_span rfl hlo hforward hhi (.string (Nat.le_of_lt hforward)) fun source shape => ?_
  show Block s.start s.stop (stringUnits shape s escaped) []
  exact block_stringUnits shape escaped

theorem paren (h : ExprBlock mid pos e els) {a b : Nat} (hlo : lo ≤ a) (ha : a ≤ mid)
    (hb : pos ≤ b) (hhi : b ≤ hi) : ExprBlock lo hi (.paren ⟨a, b⟩ e) els := by
  have hstart := h.start
  have hstop := h.stop
  have hforward := h.forward
  have hrow : Span.Row a b [e.span] := ⟨by omega, by omega, Nat.le_trans hstop hb⟩
  refine of_span rfl hlo (by omega) hhi (.paren hrow h.formed) fun source shape => ?_
  show Block a b (e.unitsAs source shape) els
  exact (h.units source shape).mono (by omega) (by omega)

/-- Something behind an expression that holds no units, such as a type. -/
theorem wrapped (h : ExprBlock lo pos e els) {b : Nat} (hb : pos ≤ b) (hhi : b ≤ hi)
    (hels : Within pos b els') :
    ExprBlock lo hi (.wrapped ⟨e.span.start, b⟩ (some e)) (els ++ els') := by
  have hstop := h.stop
  have hforward := h.forward
  have hrow : Span.Row e.span.start b [e.span] :=
    ⟨Nat.le_refl _, by omega, Nat.le_trans hstop hb⟩
  refine of_span rfl h.start (by omega) hhi (.wrapped hrow h.formed) fun source shape => ?_
  show Block e.span.start b (e.unitsAs source shape) (els ++ els')
  have hbehind := (h.units source shape).append (.of_within hels) (by omega) hstop
    (Nat.le_trans hstop hb)
  rw [List.append_nil] at hbehind
  exact hbehind

theorem binary {l r : Expr} (hl : ExprBlock lo mid l els) (hr : ExprBlock pos hi r els')
    (hmid : mid ≤ pos) (op : BinaryOp) :
    ExprBlock lo hi (.binary ⟨l.span.start, r.span.stop⟩ op l r) (els ++ els') := by
  have hlstop := hl.stop
  have hlforward := hl.forward
  have hrstart := hr.start
  have hrforward := hr.forward
  have hrow : Span.Row l.span.start r.span.stop [l.span, r.span] :=
    ⟨Nat.le_refl _, by omega, by omega, by omega, Nat.le_refl _⟩
  refine of_span rfl hl.start (by omega) hr.stop (.binary hrow hl.formed hr.formed)
    fun source shape => ?_
  have hboth := (hl.units source shape).append (hr.units source shape) (by omega) (by omega)
    (by omega)
  have hright := hl.clear.append (hr.units source shape) (by omega) (by omega) (by omega)
  cases op with
  | plus => exact hboth
  | fallback => exact hboth
  | guarded => exact hright
  | other => exact hboth.clear

theorem ternary {c l r : Expr} {lo₁ hi₁ lo₂ : Nat} {els₁ els₂ : List Span}
    (hc : ExprBlock lo mid c els) (hl : ExprBlock lo₁ hi₁ l els₁) (hr : ExprBlock lo₂ hi r els₂)
    (hmid : mid ≤ lo₁) (hmid' : hi₁ ≤ lo₂) :
    ExprBlock lo hi (.ternary ⟨c.span.start, r.span.stop⟩ c l r) (els ++ (els₁ ++ els₂)) := by
  have hcstop := hc.stop
  have hcforward := hc.forward
  have hlstart := hl.start
  have hlstop := hl.stop
  have hlforward := hl.forward
  have hrstart := hr.start
  have hrforward := hr.forward
  have hrow : Span.Row c.span.start r.span.stop [c.span, l.span, r.span] :=
    ⟨Nat.le_refl _, by omega, by omega, by omega, by omega, by omega, Nat.le_refl _⟩
  refine of_span rfl hc.start (by omega) hr.stop (.ternary hrow hc.formed hl.formed hr.formed)
    fun source shape => ?_
  have hbranches := (hl.units source .ternaryBranch).append (hr.units source .ternaryBranch)
    (by omega) (by omega) (by omega)
  exact hc.clear.append hbranches (by omega) (by omega) (by omega)

/-- An expression in front of others. -/
theorem cons {es : List Expr} (h : ExprBlock lo mid e els) (hes : FormedRow mid hi es) :
    FormedRow lo hi (e :: es) :=
  ⟨⟨h.start, Nat.le_of_lt h.forward, hes.row.mono h.stop (Nat.le_refl _)⟩,
    List.forall_mem_cons.mpr ⟨h.formed, hes.formed⟩⟩

/-- The callee and whatever stands before the arguments hold no units. -/
theorem call {args : List Expr} {stop : Nat} (h : lo ≤ e.span.start) (hpos : e.span.start < pos)
    (he : e.WellFormed) (hestop : e.span.stop ≤ pos) (hels : Within e.span.start pos els)
    (hargs : ∀ source shape, Block pos mid (listUnits source shape args) els')
    (hformed : FormedRow pos mid args) (hmid : pos ≤ mid) (hstop : mid ≤ stop) :
    ExprBlock lo stop (.call ⟨e.span.start, stop⟩ e args) (els ++ els') := by
  have hrow : Span.Row e.span.start stop (e.span :: args.map Expr.span) :=
    ⟨Nat.le_refl _, he.forward, hformed.row.mono hestop hstop⟩
  refine of_span rfl h (by omega) (Nat.le_refl _) (.call hrow he hformed.formed)
    fun source shape => ?_
  show Block e.span.start stop ([] ++ listUnits source .callArgument args) (els ++ els')
  exact (Block.of_within hels).append ((hargs source .callArgument).mono (Nat.le_refl _) hstop)
    (Nat.le_of_lt hpos) (Nat.le_refl _) (Nat.le_trans hmid hstop)

theorem array {items : List Expr} {a stop : Nat} (hlo : lo ≤ a) (ha : a < pos)
    (hitems : ∀ source shape, Block pos mid (listUnits source shape items) els)
    (hformed : FormedRow pos mid items) (hmid : pos ≤ mid) (hstop : mid ≤ stop) :
    ExprBlock lo stop (.array ⟨a, stop⟩ items) els := by
  have hrow : Span.Row a stop (items.map Expr.span) := hformed.row.mono (Nat.le_of_lt ha) hstop
  refine of_span rfl hlo (by omega) (Nat.le_refl _) (.array hrow hformed.formed)
    fun source shape => ?_
  show Block a stop (listUnits source .arrayElement items) els
  exact (hitems source .arrayElement).mono (Nat.le_of_lt ha) hstop

theorem object {ms : List Member} {a stop : Nat} (hlo : lo ≤ a) (ha : a < pos)
    (hms : MemberRow pos mid ms els) (hstop : mid < stop) :
    ExprBlock lo stop (.object ⟨a, stop⟩ ms) els := by
  have hle := hms.le
  have hformed : (Expr.object ⟨a, stop⟩ ms).WellFormed :=
    .object (hms.spans.mono (Nat.le_of_lt ha) (Nat.le_of_lt hstop))
      (fun _ _ _ hm => (hms.formed hm).1) (fun _ _ _ hm => (hms.formed hm).2)
  refine of_span rfl hlo (by omega) (Nat.le_refl _) hformed fun source shape => ?_
  show Block a stop (objectUnits ms) els
  exact hms.block_objectUnits ha hstop

theorem template {holes : List (Span × Expr)} {a stop : Nat} (hlo : lo ≤ a) (ha : a < stop)
    (hformed : FormedHoles (a + 1) (stop - 1) holes)
    (h : ∀ source shape, Block a stop (holeUnits source shape (a + 1) (stop - 1) false holes) els) :
    ExprBlock lo stop (.template ⟨a, stop⟩ holes) els := by
  refine of_span rfl hlo ha (Nat.le_refl _)
    (.template hformed.row hformed.inner hformed.formed) fun source shape => ?_
  exact h source shape

end ExprBlock

/-- Parentheses add and take nothing. -/
theorem unitsAs_unparen (source : Text) (shape : Shape) (e : Expr) :
    e.unparen.unitsAs source shape = e.unitsAs source shape := by
  fun_induction Expr.unparen e with
  | case1 span inner ih => exact ih
  | case2 e _ => rfl

/-- Of a map that is indexed, the keys are taken; of the index, nothing. -/
theorem ExprBlock.subscript {lo mid pos hi stop : Nat} {e index : Expr} {els els' : List Span}
    (h : ExprBlock lo mid e els) (hindex : ExprBlock pos hi index els') (hmid : mid ≤ pos)
    (hstop : hi ≤ stop) :
    ExprBlock lo stop (.subscript ⟨e.span.start, stop⟩ e index) (els ++ els') := by
  have hestop := h.stop
  have heforward := h.forward
  have histart := hindex.start
  have hiforward := hindex.forward
  have histop := hindex.stop
  have hrow : Span.Row e.span.start stop [e.span, index.span] :=
    ⟨Nat.le_refl _, by omega, by omega, by omega, Nat.le_trans histop hstop⟩
  refine .of_span rfl h.start (by omega) (Nat.le_refl _) (.subscript hrow h.formed hindex.formed)
    fun source shape => ?_
  have hall := (h.units source shape).append (hindex.clear.mono (Nat.le_refl _)
    (Nat.le_trans histop hstop)) (by omega) (by omega) (by omega)
  rw [List.append_nil, ← unitsAs_unparen] at hall
  rw [Expr.unitsAs]
  split
  · rename_i hobject
    rw [hobject] at hall
    exact hall
  · exact hall.clear

end ClassSort.Script
