import ClassSort.Script.Units

/-!
# The shape of expression trees

A tree is well-formed if the range of every part lies inside the range of the whole, and the parts
of one whole stand one behind the other. The backticks of a template are parts as well, so its holes
are between them. Nothing else is asked: neither where the ranges come from nor what they hold.

`Expr.Reaches` is the walk that looks for class lists, as a relation. It says which parts are
entered and nothing about what is taken from them. What is passed by without being entered, and must
not be touched, is `Expr.Bars`.
-/

namespace ClassSort

/-- Ranges one behind the other, between two offsets. -/
def Span.Row (lo hi : Nat) : List Span → Prop
  | [] => lo ≤ hi
  | s :: ss => lo ≤ s.start ∧ s.start ≤ s.stop ∧ Span.Row s.stop hi ss

instance Span.Row.decidable (lo hi : Nat) : (ss : List Span) → Decidable (Span.Row lo hi ss)
  | [] => inferInstanceAs (Decidable (lo ≤ hi))
  | s :: ss =>
    have := Span.Row.decidable s.stop hi ss
    inferInstanceAs (Decidable (lo ≤ s.start ∧ s.start ≤ s.stop ∧ Span.Row s.stop hi ss))

namespace Span.Row

variable {lo hi : Nat} {ss : List Span}

theorem le (h : Row lo hi ss) : lo ≤ hi := by
  induction ss generalizing lo with
  | nil => exact h
  | cons s ss ih =>
      obtain ⟨hstart, hforward, hrest⟩ := h
      have := ih hrest
      omega

theorem mono {lo' hi' : Nat} (h : Row lo hi ss) (hlo : lo' ≤ lo) (hhi : hi ≤ hi') :
    Row lo' hi' ss := by
  induction ss generalizing lo lo' with
  | nil => exact Nat.le_trans (Nat.le_trans hlo h) hhi
  | cons s ss ih =>
      obtain ⟨hstart, hforward, hrest⟩ := h
      exact ⟨Nat.le_trans hlo hstart, hforward, ih hrest (Nat.le_refl _)⟩

/-- Each range lies between the two offsets. -/
theorem inside (h : Row lo hi ss) {s : Span} (hs : s ∈ ss) :
    lo ≤ s.start ∧ s.start ≤ s.stop ∧ s.stop ≤ hi := by
  induction ss generalizing lo with
  | nil => exact absurd hs (by simp)
  | cons t ss ih =>
      obtain ⟨hstart, hforward, hrest⟩ := h
      rcases List.mem_cons.mp hs with rfl | hs
      · exact ⟨hstart, hforward, hrest.le⟩
      · have := ih hrest hs
        omega

theorem pairwise (h : Row lo hi ss) : ss.Pairwise fun s t => s.stop ≤ t.start := by
  induction ss generalizing lo with
  | nil => exact .nil
  | cons s ss ih =>
      obtain ⟨hstart, hforward, hrest⟩ := h
      exact .cons (fun t ht => (hrest.inside ht).1) (ih hrest)

end Span.Row

namespace Script

/-- Every part inside the whole, and one part behind the other. -/
inductive Expr.WellFormed : Expr → Prop
  | string {s : Span} {escaped : Bool} (hs : s.start ≤ s.stop) : WellFormed (.string s escaped)
  /-- The holes are between the backticks. -/
  | template {s : Span} {holes : List (Span × Expr)}
      (hrow : Span.Row (s.start + 1) (s.stop - 1) (holes.map (·.1)))
      (hinner : ∀ h ∈ holes, Span.Row h.1.start h.1.stop [h.2.span])
      (hholes : ∀ h ∈ holes, WellFormed h.2) : WellFormed (.template s holes)
  | paren {s : Span} {inner : Expr} (hrow : Span.Row s.start s.stop [inner.span])
      (hinner : WellFormed inner) : WellFormed (.paren s inner)
  | wrapped {s : Span} {inner : Expr} (hrow : Span.Row s.start s.stop [inner.span])
      (hinner : WellFormed inner) : WellFormed (.wrapped s (some inner))
  | empty {s : Span} (hs : s.start ≤ s.stop) : WellFormed (.wrapped s none)
  | binary {s : Span} {op : BinaryOp} {left right : Expr}
      (hrow : Span.Row s.start s.stop [left.span, right.span]) (hleft : WellFormed left)
      (hright : WellFormed right) : WellFormed (.binary s op left right)
  | ternary {s : Span} {condition consequence alternative : Expr}
      (hrow : Span.Row s.start s.stop [condition.span, consequence.span, alternative.span])
      (hcondition : WellFormed condition) (hconsequence : WellFormed consequence)
      (halternative : WellFormed alternative) :
      WellFormed (.ternary s condition consequence alternative)
  | call {s : Span} {callee : Expr} {arguments : List Expr}
      (hrow : Span.Row s.start s.stop (callee.span :: arguments.map Expr.span))
      (hcallee : WellFormed callee) (harguments : ∀ a ∈ arguments, WellFormed a) :
      WellFormed (.call s callee arguments)
  | array {s : Span} {items : List Expr} (hrow : Span.Row s.start s.stop (items.map Expr.span))
      (hitems : ∀ i ∈ items, WellFormed i) : WellFormed (.array s items)
  | object {s : Span} {members : List Member}
      (hrow : Span.Row s.start s.stop (members.map Member.span))
      (hpairs : ∀ p k v, Member.pair p k v ∈ members → Span.Row p.start p.stop [k.span, v.span])
      (hvalues : ∀ p k v, Member.pair p k v ∈ members → WellFormed v) :
      WellFormed (.object s members)
  | subscript {s : Span} {object index : Expr}
      (hrow : Span.Row s.start s.stop [object.span, index.span]) (hobject : WellFormed object)
      (hindex : WellFormed index) : WellFormed (.subscript s object index)
  | other {s : Span} (hs : s.start ≤ s.stop) : WellFormed (.other s)

/-- Well-formed expressions one behind the other, between two offsets. -/
structure FormedRow (lo hi : Nat) (es : List Expr) : Prop where
  row : Span.Row lo hi (es.map Expr.span)
  formed : ∀ e ∈ es, e.WellFormed

theorem FormedRow.mono {lo hi lo' hi' : Nat} {es : List Expr} (h : FormedRow lo hi es)
    (hlo : lo' ≤ lo) (hhi : hi ≤ hi') : FormedRow lo' hi' es := ⟨h.row.mono hlo hhi, h.formed⟩

/-- Holes with well-formed expressions in them, one behind the other. -/
structure FormedHoles (lo hi : Nat) (holes : List (Span × Expr)) : Prop where
  row : Span.Row lo hi (holes.map (·.1))
  inner : ∀ h ∈ holes, Span.Row h.1.start h.1.stop [h.2.span]
  formed : ∀ h ∈ holes, h.2.WellFormed

theorem FormedHoles.mono {lo lo' hi : Nat} {holes : List (Span × Expr)}
    (h : FormedHoles lo hi holes) (hlo : lo' ≤ lo) : FormedHoles lo' hi holes :=
  ⟨h.row.mono hlo (Nat.le_refl _), h.inner, h.formed⟩

theorem Expr.WellFormed.forward {e : Expr} (h : e.WellFormed) : e.span.start ≤ e.span.stop := by
  cases h with
  | string hs => exact hs
  | empty hs => exact hs
  | other hs => exact hs
  | template hrow =>
      have := hrow.le
      simp only [Expr.span]
      omega
  | paren hrow => exact hrow.le
  | wrapped hrow => exact hrow.le
  | binary hrow => exact hrow.le
  | ternary hrow => exact hrow.le
  | call hrow => exact hrow.le
  | array hrow => exact hrow.le
  | object hrow => exact hrow.le
  | subscript hrow => exact hrow.le

/-- The walk from an expression into its parts. -/
inductive Expr.Reaches : Expr → Expr → Prop
  | refl (e : Expr) : Reaches e e
  | hole {s : Span} {holes : List (Span × Expr)} {h : Span × Expr} {e : Expr} (hmem : h ∈ holes)
      (hreach : Reaches h.2 e) : Reaches (.template s holes) e
  | paren {s : Span} {inner e : Expr} (hreach : Reaches inner e) : Reaches (.paren s inner) e
  | wrapped {s : Span} {inner e : Expr} (hreach : Reaches inner e) :
      Reaches (.wrapped s (some inner)) e
  | left {s : Span} {op : BinaryOp} {left right e : Expr} (hop : op = .plus ∨ op = .fallback)
      (hreach : Reaches left e) : Reaches (.binary s op left right) e
  | right {s : Span} {op : BinaryOp} {left right e : Expr} (hop : op ≠ .other)
      (hreach : Reaches right e) : Reaches (.binary s op left right) e
  | consequence {s : Span} {condition consequence alternative e : Expr}
      (hreach : Reaches consequence e) :
      Reaches (.ternary s condition consequence alternative) e
  | alternative {s : Span} {condition consequence alternative e : Expr}
      (hreach : Reaches alternative e) :
      Reaches (.ternary s condition consequence alternative) e
  | argument {s : Span} {callee a e : Expr} {arguments : List Expr} (hmem : a ∈ arguments)
      (hreach : Reaches a e) : Reaches (.call s callee arguments) e
  | item {s : Span} {i e : Expr} {items : List Expr} (hmem : i ∈ items) (hreach : Reaches i e) :
      Reaches (.array s items) e
  /-- Of an indexed expression only an object is entered. -/
  | map {s s' : Span} {object index : Expr} {members : List Member}
      (hobject : object.unparen = .object s' members) :
      Reaches (.subscript s object index) (.object s' members)

/-- The ranges that the walk leaves alone at an expression: conditions, callees and indexes. -/
def Expr.Bars : Expr → Span → Prop
  | .binary _ .guarded left _, b => b = left.span
  | .ternary _ condition _ _, b => b = condition.span
  | .call _ callee _, b => b = callee.span
  | .subscript _ _ index, b => b = index.span
  | _, _ => False

/-- The ranges of literals that hold class lists at an expression, with their quotes. -/
def Expr.Quotes : Expr → Span → Prop
  | .string s _, q => q = s
  | .template s _, q => q = s
  | .object _ members, q => ∃ p escaped v, Member.pair p (.string q escaped) v ∈ members
  | _, _ => False

theorem Expr.WellFormed.unparen {e : Expr} (h : e.WellFormed) : e.unparen.WellFormed := by
  induction h with
  | paren _ _ ih => exact ih
  | _ => constructor <;> assumption

/-- What is reached in a well-formed tree is well-formed. -/
theorem Expr.WellFormed.of_reaches {e e' : Expr} (h : e.WellFormed) (hreach : e.Reaches e') :
    e'.WellFormed := by
  induction hreach with
  | refl e => exact h
  | hole hmem _ ih =>
      cases h with
      | template _ _ hholes => exact ih (hholes _ hmem)
  | paren _ ih =>
      cases h with
      | paren _ hinner => exact ih hinner
  | wrapped _ ih =>
      cases h with
      | wrapped _ hinner => exact ih hinner
  | left _ _ ih =>
      cases h with
      | binary _ hleft _ => exact ih hleft
  | right _ _ ih =>
      cases h with
      | binary _ _ hright => exact ih hright
  | consequence _ ih =>
      cases h with
      | ternary _ _ hconsequence _ => exact ih hconsequence
  | alternative _ ih =>
      cases h with
      | ternary _ _ _ halternative => exact ih halternative
  | argument hmem _ ih =>
      cases h with
      | call _ _ harguments => exact ih (harguments _ hmem)
  | item hmem _ ih =>
      cases h with
      | array _ hitems => exact ih (hitems _ hmem)
  | map hobject =>
      cases h with
      | subscript _ hobj _ => exact hobject ▸ hobj.unparen

end Script

end ClassSort
