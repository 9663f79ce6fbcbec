import ClassSort.Proofs.DisjointUnits

/-!
# One pass is as good as one replacement after the other

Edits are made in one pass over the source, with the offsets of the source. The same text comes out
when the ranges are replaced one after the other, **from the last to the first**: a replacement
moves what is behind it, and there everything has been done already.

Both ways are compared with a relation. `Replaced pos es rest out` takes the rest of a source apart
into what is kept, what is replaced, and so on, and puts `out` together from the same parts. It
mentions neither a cursor nor a text that changes on the way. Each way follows it by induction, one
from the front and one from the back.

The order in which the edits are given does not matter. Of two different ranges that do not overlap
one goes first, also if they touch or one of them is empty, so there is only one way to sort them.
-/

namespace ClassSort

/-- Ranges each of which ends before the other begins are empty and in one place. -/
theorem Span.eq_of_stop_le_start {s t : Span} (hs : s.start ≤ s.stop) (ht : t.start ≤ t.stop)
    (hst : s.stop ≤ t.start) (hts : t.stop ≤ s.start) : s = t := by
  obtain ⟨i, j⟩ := s
  obtain ⟨k, l⟩ := t
  dsimp only at hs ht hst hts
  obtain rfl : i = k := by omega
  obtain rfl : j = l := by omega
  rfl

namespace Edit

/-- `out` is `rest` with the range of each edit replaced and **everything else kept**, where `rest`
begins at offset `pos`. -/
inductive Replaced : Nat → List Edit → Text → Text → Prop
  | nil (pos : Nat) (rest : Text) : Replaced pos [] rest rest
  | cons {pos : Nat} {e : Edit} {es : List Edit} {kept old rest out : Text}
      (hstart : pos + Text.size kept = e.span.start)
      (hstop : e.span.start + Text.size old = e.span.stop)
      (hrest : Replaced e.span.stop es rest out) :
      Replaced pos (e :: es) (kept ++ (old ++ rest)) (kept ++ (e.text ++ out))

/-- The text with one range replaced, if it has that range. -/
def replace? (text : Text) (e : Edit) : Option Text := do
  let front ← Text.slice? text ⟨0, e.span.start⟩
  let _ ← Text.slice? text e.span
  let back ← Text.drop? text e.span.stop
  return front ++ e.text ++ back

theorem replace?_of_parts {e : Edit} (front old back : Text)
    (hstart : Text.size front = e.span.start) (hstop : e.span.start + Text.size old = e.span.stop) :
    replace? (front ++ (old ++ back)) e = some (front ++ (e.text ++ back)) := by
  have hfront : Text.slice? (front ++ (old ++ back)) ⟨0, e.span.start⟩ = some front :=
    Text.slice?_eq_some.mpr ⟨[], old ++ back, rfl, rfl, by rw [Nat.zero_add, hstart]⟩
  have hold : Text.slice? (front ++ (old ++ back)) e.span = some old :=
    Text.slice?_eq_some.mpr ⟨front, back, (List.append_assoc _ _ _).symm, hstart, hstop⟩
  have hback : Text.drop? (front ++ (old ++ back)) e.span.stop = some back := by
    refine Text.drop?_eq_some.mpr ⟨front ++ old, (List.append_assoc _ _ _).symm, ?_⟩
    rw [Text.size_append, hstart]
    exact hstop
  unfold replace?
  rw [hfront, hold, hback]
  exact congrArg some (List.append_assoc _ _ _)

namespace Replaced

variable {pos : Nat} {es : List Edit} {source rest out : Text}

/-! ## What follows from the relation -/

/-- Something more in front that is kept. -/
theorem keep {kept : Text} (h : Replaced (pos + Text.size kept) es rest out) :
    Replaced pos es (kept ++ rest) (kept ++ out) := by
  cases h with
  | nil => exact .nil _ _
  | @cons _ e es kept' old rest out hstart hstop hrest =>
      rw [← List.append_assoc kept, ← List.append_assoc kept]
      refine .cons ?_ hstop hrest
      rw [Text.size_append]
      omega

/-- The edits are one behind the other, inside the text. -/
theorem inside (h : Replaced pos es rest out) :
    (∀ e ∈ es, pos ≤ e.span.start ∧ e.span.start ≤ e.span.stop ∧
      e.span.stop ≤ pos + Text.size rest) ∧
      es.Pairwise fun a b => a.span.stop ≤ b.span.start := by
  induction h with
  | nil pos rest => exact ⟨by simp, .nil⟩
  | @cons pos e es kept old rest out hstart hstop hrest ih =>
      obtain ⟨hinside, hordered⟩ := ih
      refine ⟨?_, List.pairwise_cons.mpr ⟨fun e' he' => (hinside e' he').1, hordered⟩⟩
      intro e' he'
      rw [Text.size_append, Text.size_append]
      rcases List.mem_cons.mp he' with rfl | he'
      · omega
      · have := hinside e' he'
        omega

/-- **The pass writes what the relation says**, and leaves no edit out. -/
theorem splice (h : Replaced pos es rest out) (front : Text) (hfront : Text.size front = pos)
    (hsource : source = front ++ rest) : Edit.splice source pos es = some out := by
  induction h generalizing front with
  | nil pos rest => exact Text.drop?_eq_some.mpr ⟨front, hsource, hfront⟩
  | @cons pos e es kept old rest out hstart hstop hrest ih =>
      -- the edit begins behind the cursor and ends in the source
      have hsize := congrArg Text.size hsource
      simp only [Text.size_append] at hsize
      have hkept : Text.slice? source ⟨pos, e.span.start⟩ = some kept := by
        refine Text.slice?_eq_some.mpr ⟨front, old ++ rest, ?_, hfront, hstart⟩
        rw [hsource, List.append_assoc]
      have hnext : Edit.splice source e.span.stop es = some out := by
        refine ih (front ++ (kept ++ old)) ?_ ?_
        · rw [Text.size_append, Text.size_append]
          omega
        · rw [hsource]
          simp only [List.append_assoc]
      rw [Edit.splice, if_neg (by simp; omega), hkept, hnext]
      exact congrArg some (List.append_assoc _ _ _)

/-- All edits are made, as they stand. -/
theorem applyAll (h : Replaced 0 es source out) : Edit.applyAll source es = some out := by
  obtain ⟨hinside, hordered⟩ := h.inside
  unfold Edit.applyAll
  rw [stableSort_of_follows (fun e he => (hinside e he).2.1) hordered]
  exact h.splice [] rfl rfl

/-- **Replacing from the last range to the first gives the same text.** -/
theorem foldlM_reverse (h : Replaced pos es rest out) (front : Text)
    (hfront : Text.size front = pos) :
    es.reverse.foldlM replace? (front ++ rest) = some (front ++ out) := by
  induction h generalizing front with
  | nil pos rest => rfl
  | @cons pos e es kept old rest out hstart hstop hrest ih =>
      -- what is behind the range goes first and leaves the range where it is
      have hbehind : es.reverse.foldlM replace? (front ++ kept ++ old ++ rest) =
          some (front ++ kept ++ old ++ out) := by
        refine ih (front ++ kept ++ old) ?_
        rw [Text.size_append, Text.size_append]
        omega
      have hsize : Text.size (front ++ kept) = e.span.start := by
        rw [Text.size_append]
        omega
      have hlast := replace?_of_parts (front ++ kept) old out hsize hstop
      rw [List.reverse_cons, List.foldlM_append]
      simp only [List.append_assoc] at hbehind hlast ⊢
      rw [hbehind, Option.bind_eq_bind, Option.bind_some, List.foldlM_cons, hlast]
      rfl

end Replaced

/-- The edit of one class list changes nothing around the list. -/
theorem applyAll_list (r : Ranking) {source before old behind : Text} {c : ClassSpan}
    (hsource : source = before ++ (old ++ behind))
    (hspan : c.span = ⟨Text.size before, Text.size before + Text.size old⟩) :
    applyAll source (ClassUnit.edits source r [.list c]) =
      some (before ++ (ClassList.sort r c.ends old ++ behind)) := by
  rw [ClassUnit.edits_singleton, ClassUnit.edit?_list r hsource hspan]
  unfold unlessSame
  split
  · rename_i hsame
    rw [hsame, ← hsource]
    exact (Replaced.nil 0 source).applyAll
  · rw [hsource]
    refine Replaced.applyAll (.cons ?_ ?_ (.nil _ behind))
    · rw [hspan, Nat.zero_add]
    · rw [hspan]

/-! ## Edits that do not overlap -/

/-- Edits of different ranges of a source, no two of which overlap. -/
structure Compatible (source : Text) (es : List Edit) : Prop where
  valid : ∀ e ∈ es, ∃ old, Text.slice? source e.span = some old
  separate : es.Pairwise fun a b => a.span.Separate b.span
  distinct : es.Pairwise fun a b => a.span ≠ b.span

/-- Valid ranges one behind the other can be replaced. -/
theorem exists_replaced {source : Text} {es : List Edit}
    (hvalid : ∀ e ∈ es, ∃ old, Text.slice? source e.span = some old)
    (hordered : es.Pairwise fun a b => a.span.stop ≤ b.span.start) (front rest : Text)
    (hsource : source = front ++ rest) (hbehind : ∀ e ∈ es, Text.size front ≤ e.span.start) :
    ∃ out, Replaced (Text.size front) es rest out := by
  induction es generalizing front rest with
  | nil => exact ⟨rest, .nil _ _⟩
  | cons e es ih =>
      obtain ⟨⟨old, hold⟩, hvalid'⟩ := List.forall_mem_cons.mp hvalid
      obtain ⟨hfirst, hordered'⟩ := List.pairwise_cons.mp hordered
      obtain ⟨a, b, hab, ha, hstop⟩ := Text.slice?_eq_some.mp hold
      rw [List.append_assoc] at hab
      have hle : Text.size front ≤ Text.size a := by
        rw [ha]
        exact hbehind e List.mem_cons_self
      obtain ⟨kept, rfl, rfl⟩ := append_after (hsource.symm.trans hab) hle
      have hcursor : Text.size (front ++ kept ++ old) = e.span.stop := by
        rw [Text.size_append, ha]
        exact hstop
      obtain ⟨out, hout⟩ := ih hvalid' hordered' (front ++ kept ++ old) b
        (by rw [hab]; simp only [List.append_assoc]) (by rw [hcursor]; exact hfirst)
      rw [hcursor] at hout
      rw [Text.size_append] at ha
      exact ⟨kept ++ (e.text ++ out), .cons ha hstop hout⟩

namespace Compatible

variable {source : Text} {es es' : List Edit}

theorem forward (h : Compatible source es) {e : Edit} (he : e ∈ es) :
    e.span.start ≤ e.span.stop := by
  obtain ⟨old, hold⟩ := h.valid e he
  have := (Text.bounds_of_slice? hold).1
  omega

theorem perm (h : Compatible source es) (hperm : es'.Perm es) : Compatible source es' :=
  ⟨fun e he => h.valid e (hperm.mem_iff.mp he), h.separate.perm hperm.symm Or.symm,
    h.distinct.perm hperm.symm Ne.symm⟩

/-- In the order in which they are made, the edits are one behind the other. -/
theorem ordered (h : Compatible source es) :
    (stableSort le es).Pairwise fun a b => a.span.stop ≤ b.span.start := by
  have hperm := stableSort_perm le es
  have hsorted := h.perm hperm
  refine ((pairwise_made_order es).and hsorted.separate).imp_of_mem ?_
  intro a b ha hb hab
  obtain ⟨hle, hsep⟩ := hab
  have hforward := hsorted.forward ha
  have hforward' := hsorted.forward hb
  rw [le_iff] at hle
  -- if `b` ends before `a` begins, both begin there and `a` is empty
  rcases hsep with hsep | hsep <;> omega

/-- There is only one order to make them in. -/
theorem stableSort_eq (h : Compatible source es) (hperm : es'.Perm es) :
    stableSort le es' = stableSort le es := by
  have hperm' : (stableSort le es').Perm (stableSort le es) :=
    ((stableSort_perm le es').trans hperm).trans (stableSort_perm le es).symm
  have hsorted := h.perm (stableSort_perm le es)
  refine hperm'.eq_of_pairwise ?_ (h.perm hperm).ordered h.ordered
  intro a b ha hb hab hba
  have ha := hperm'.mem_iff.mp ha
  have hspan := Span.eq_of_stop_le_start (hsorted.forward ha) (hsorted.forward hb) hab hba
  have hsymm : Std.Symm fun a b : Edit => a.span ≠ b.span := ⟨fun _ _ => Ne.symm⟩
  by_cases heq : a = b
  · exact heq
  · exact absurd hspan (hsorted.distinct.forall ha hb heq)

end Compatible

/--
**Edits that do not overlap can be made in any order.**

They come in one row from left to right. Whatever order they are given in, the pass makes all of
them and keeps everything else, and it writes what comes out when the ranges are replaced one after
the other from the last of the row to the first.
-/
theorem edits_in_any_order {source : Text} {es : List Edit} (h : Compatible source es) :
    ∃ row out, row.Perm es ∧ row.Pairwise (fun a b => a.span.stop ≤ b.span.start) ∧
      Replaced 0 row source out ∧
      (∀ es', es'.Perm es → applyAll source es' = some out) ∧
      row.reverse.foldlM replace? source = some out := by
  have hperm := stableSort_perm le es
  obtain ⟨out, hout⟩ := exists_replaced (h.perm hperm).valid h.ordered [] source rfl
    fun e _ => Nat.zero_le _
  refine ⟨stableSort le es, out, hperm, h.ordered, hout, ?_, hout.foldlM_reverse [] rfl⟩
  intro es' hes'
  unfold applyAll
  rw [h.stableSort_eq hes']
  exact hout.splice [] rfl rfl

def touchingText : Text := "aébcd".toList

/-- An insertion, a deletion and two replacements, each of which touches another one. -/
def touchingEdits : List Edit :=
  [⟨⟨3, 3⟩, "X".toList⟩, ⟨⟨4, 6⟩, []⟩, ⟨⟨1, 3⟩, "yyy".toList⟩, ⟨⟨3, 4⟩, "é".toList⟩]

theorem compatible_touchingEdits : Compatible touchingText touchingEdits := by
  have hvalid : ∀ e ∈ touchingEdits, (Text.slice? touchingText e.span).isSome = true := by decide
  exact ⟨fun e he => Option.isSome_iff_exists.mp (hvalid e he), by decide, by decide⟩

theorem edits_in_any_order_touching : Compatible touchingText touchingEdits ∧
    ∃ row out, row.Perm touchingEdits ∧ Replaced 0 row touchingText out ∧
      applyAll touchingText touchingEdits = some out ∧
      applyAll touchingText touchingEdits.reverse = some out ∧
      row.reverse.foldlM replace? touchingText = some out := by
  obtain ⟨row, out, hrow, -, hout, hany, hone⟩ := edits_in_any_order compatible_touchingEdits
  exact ⟨compatible_touchingEdits, row, out, hrow, hout, hany _ (.refl _),
    hany _ (List.reverse_perm _), hone⟩

end Edit

end ClassSort
