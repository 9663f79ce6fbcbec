import Mathlib.Data.List.Forall2
import ClassSort.Proofs.AlignedTrees
import ClassSort.Proofs.MovedText
import ClassSort.Proofs.UnitOverlap
import ClassSort.Proofs.UnitPlaces

/-!
# The place of a bound value

The value of a bound attribute is read on its own, between parentheses. What is found there is then
moved: forward by what stands in front of the value, and back by one for the parenthesis. A range
that touches no parenthesis is moved to a range of the value, with the same text.

Two things are needed for that. **Every range of a unit lies in the unit**, and **every range ends
between characters**, so that it has a text at all. Both hold for the units of any tree whose nodes
nest and end between characters (`readable_units`). So the units of any such tree lead back to the
value, if they keep clear of the parentheses (`forall₂_leadsBack`).
-/

namespace ClassSort

/-! ## The ranges of a unit -/

/-- All ranges of a unit: its own, and those of its entries and of their keys. -/
def ClassUnit.ranges : ClassUnit → List Span
  | .list c => [c.span]
  | .entries es => Entry.region es :: es.flatMap fun e => [e.span, e.key.span]

/-- Moving a unit moves all of them. -/
theorem ClassUnit.ranges_map (f : Nat → Nat) {u : ClassUnit} (h : 0 < u.span.start) :
    (u.map f).ranges = u.ranges.map (Span.map f) := by
  cases u with
  | list c => rfl
  | entries es =>
      have hregion : Entry.region (es.map (·.map f)) = (Entry.region es).map f := span_map f h
      show Entry.region (es.map (·.map f)) :: (es.map (·.map f)).flatMap _ = _
      rw [hregion, List.flatMap_map, ranges, List.map_cons, List.map_flatMap]
      rfl

/-- A range in another one, from a boundary to a boundary. -/
structure Span.Readable (source : Text) (s outer : Span) : Prop where
  aligned : s.Aligned source
  forward : s.start ≤ s.stop
  start : outer.start ≤ s.start
  stop : s.stop ≤ outer.stop

/-- All ranges of a unit can be read, and lie in it. -/
def ClassUnit.Readable (source : Text) (u : ClassUnit) : Prop :=
  ∀ s ∈ u.ranges, s.Readable source u.span

namespace Script

variable {source : Text}

theorem readable_list {c : ClassSpan} (haligned : c.span.Aligned source)
    (hforward : c.span.start ≤ c.span.stop) : (ClassUnit.list c).Readable source := by
  intro s hs
  obtain rfl := List.mem_singleton.mp hs
  exact ⟨haligned, hforward, Nat.le_refl _, Nat.le_refl _⟩

/-- The content of a string is what stands between its quotes. -/
theorem eq_unquoted_of_content? {s c : Span} {escaped : Bool} (h : content? s escaped = some c) :
    c = unquoted s ∧ c.start < c.stop := by
  unfold content? at h
  split at h
  · rename_i hcontent
    obtain rfl := Option.some.inj h
    exact ⟨rfl, of_decide_eq_true (Bool.and_eq_true_iff.mp hcontent).2⟩
  · exact absurd h (by simp)

theorem readable_stringUnits {shape : Shape} {s : Span} {escaped : Bool} {u : ClassUnit}
    (hs : (unquoted s).Aligned source) (hu : u ∈ stringUnits shape s escaped) :
    u.Readable source := by
  unfold stringUnits at hu
  obtain ⟨c, hc, rfl⟩ := Option.map_eq_some_iff.mp (Option.mem_toList.mp hu)
  obtain ⟨rfl, hforward⟩ := eq_unquoted_of_content? hc
  exact readable_list hs (Nat.le_of_lt hforward)

/-- A segment is taken only if it can be read. -/
theorem readable_segment {g : Segment} {u : ClassUnit} (hu : u ∈ g.units source) :
    u.Readable source := by
  unfold Segment.units segmentUnits at hu
  split at hu
  · cases hu
  · rename_i text htext
    split at hu
    · cases hu
    · obtain rfl := List.mem_singleton.mp hu
      have hbounds := Text.bounds_of_slice? htext
      have hforward : g.span.start ≤ g.span.stop := by omega
      exact readable_list (Span.aligned_of_slice? htext) hforward

/-! ## Entries -/

/-- The key of an entry lies in the member, and so does the entry. -/
theorem readable_entry {m : Member} {e : Entry} (he : entryOf? m = some e)
    (hm : m.Aligned source)
    (hrow : ∀ p k v, m = .pair p k v → Span.Row p.start p.stop [k.span, v.span]) :
    e.span.Readable source e.span ∧ e.key.span.Readable source e.span := by
  cases m with
  | other s => exact absurd he (by simp [entryOf?])
  | pair p k v =>
      obtain ⟨key, hkey, rfl⟩ := Option.map_eq_some_iff.mp he
      obtain ⟨hp, hk, -⟩ := hm p k v rfl
      have hparts := hrow p k v rfl
      obtain ⟨hkstart, hkforward, hvstart, hvforward, hvstop⟩ := hparts
      have hvstop : v.span.stop ≤ p.stop := hvstop
      refine ⟨⟨hp, by dsimp only; omega, Nat.le_refl _, Nat.le_refl _⟩, ?_⟩
      cases k with
      | string s escaped =>
          obtain ⟨c, hc, rfl⟩ := Option.map_eq_some_iff.mp hkey
          obtain ⟨rfl, hforward⟩ := eq_unquoted_of_content? hc
          simp only [Key.span] at hkstart hkforward hvstart
          refine ⟨hk.quotes s escaped rfl, Nat.le_of_lt hforward, ?_, ?_⟩
          · exact Nat.le_succ_of_le hkstart
          · show s.stop - 1 ≤ p.stop
            omega
      | name s =>
          obtain rfl := Option.some.inj hkey
          simp only [Key.span] at hkstart hkforward hvstart
          exact ⟨hk.ends, hkforward, hkstart, by dsimp only; omega⟩
      | other s => exact absurd hkey (by simp [entryKey?])

theorem exists_member_of_mapM {ms : List Member} {es : List Entry} {e : Entry}
    (h : ms.mapM entryOf? = some es) (he : e ∈ es) : ∃ m ∈ ms, entryOf? m = some e := by
  obtain ⟨i, hi, rfl⟩ := List.getElem_of_mem he
  have hall := forall₂_of_mapM h
  have hlength := hall.length_eq
  exact ⟨ms[i], List.getElem_mem _, List.Forall₂.get hall (by omega) hi⟩

/-- The range of some entries begins with the first and ends with the last. -/
theorem aligned_region {es : List Entry} (hne : es ≠ []) (h : ∀ e ∈ es, e.span.Aligned source) :
    (Entry.region es).Aligned source := by
  rw [Entry.region, List.head?_eq_some_head hne, List.getLast?_eq_some_getLast hne]
  exact ⟨(h _ (List.head_mem hne)).1, (h _ (List.getLast_mem hne)).2⟩

theorem readable_entries {ms : List Member} {es : List Entry} {lo hi : Nat}
    (hes : ms.mapM entryOf? = some es) (hne : es ≠ []) (hms : ∀ m ∈ ms, m.Aligned source)
    (hrow : Span.Row lo hi (ms.map Member.span))
    (hpairs : ∀ p k v, Member.pair p k v ∈ ms → Span.Row p.start p.stop [k.span, v.span]) :
    (ClassUnit.entries es).Readable source := by
  have hentry (e : Entry) (he : e ∈ es) :
      e.span.Readable source e.span ∧ e.key.span.Readable source e.span := by
    obtain ⟨m, hm, hme⟩ := exists_member_of_mapM hes he
    exact readable_entry hme (hms m hm) fun p k v heq => hpairs p k v (heq ▸ hm)
  rw [← map_span_of_mapM hes] at hrow
  obtain ⟨⟨-, hforward, -⟩, hinside⟩ := row_region hne hrow
  intro s hs
  rcases List.mem_cons.mp hs with rfl | hs
  · exact ⟨aligned_region hne fun e he => (hentry e he).1.aligned, hforward, Nat.le_refl _,
      Nat.le_refl _⟩
  · obtain ⟨e, he, hs⟩ := List.mem_flatMap.mp hs
    obtain ⟨hstart, hstop⟩ := hinside e he
    obtain ⟨hspan, hkey⟩ := hentry e he
    rcases List.mem_pair.mp hs with rfl | rfl
    · exact ⟨hspan.aligned, hspan.forward, hstart, hstop⟩
    · exact ⟨hkey.aligned, hkey.forward, Nat.le_trans hstart hkey.start,
        Nat.le_trans hkey.stop hstop⟩

/-- The units of an object: its entries, or its string keys. -/
theorem readable_objectUnits {ms : List Member} {u : ClassUnit} {lo hi : Nat}
    (hms : ∀ m ∈ ms, m.Aligned source) (hrow : Span.Row lo hi (ms.map Member.span))
    (hpairs : ∀ p k v, Member.pair p k v ∈ ms → Span.Row p.start p.stop [k.span, v.span])
    (hu : u ∈ objectUnits ms) : u.Readable source := by
  unfold objectUnits at hu
  split at hu
  · cases hu
  · rename_i es hne hes
    obtain rfl := List.mem_singleton.mp hu
    exact readable_entries hes (fun hnil => hne (hnil ▸ rfl)) hms hrow hpairs
  · obtain ⟨m, hm, hu⟩ := List.mem_flatMap.mp hu
    unfold keyUnits at hu
    split at hu
    · rename_i p s escaped v
      exact readable_stringUnits ((hms _ hm p _ v rfl).2.1.quotes s escaped rfl) hu
    · cases hu

/-! ## Trees -/

theorem readable_of_owner {node : Expr} {u : ClassUnit} (hformed : node.WellFormed)
    (haligned : node.Aligned source) (howns : node.Owns source u) : u.Readable source := by
  cases haligned with
  | string _ hquotes =>
      obtain ⟨shape, hu⟩ := howns
      exact readable_stringUnits hquotes hu
  | template =>
      obtain ⟨g, -, hu⟩ := howns
      exact readable_segment hu
  | @object s ms _ hkeys hvalues =>
      have hms : ∀ m ∈ ms, m.Aligned source := by
        rintro m hm p k v rfl
        exact ⟨(hkeys p k v hm).1, (hkeys p k v hm).2, hvalues p k v hm⟩
      cases hformed with
      | object hrow hpairs => exact readable_objectUnits hms hrow hpairs howns
  | _ => exact absurd howns id

/-- **Every range of every unit of a tree can be read.** -/
theorem readable_units {e : Expr} (hformed : e.WellFormed) (haligned : e.Aligned source)
    {u : ClassUnit} (hu : u ∈ e.units source) : u.Readable source := by
  obtain ⟨node, hreach, howns⟩ := exists_owner hformed hu
  exact readable_of_owner (hformed.of_reaches hreach) (haligned.of_reaches hreach) howns

/-- The tree of a script is well-formed. -/
theorem wellFormed_readProgram {d : Dialect} {e : Expr}
    (h : readProgram d (lex d source) = some e) : e.WellFormed := by
  obtain ⟨rest, hread⟩ := sequence_of_readProgram h
  obtain ⟨els, stop, -, hblock⟩ := (readers d _).sequence hread (ordered_lex d source).1
  exact hblock.formed

end Script

/-! ## Bound values -/

namespace Markup

/-- A range `r` of the text in parentheses, and the range `r'` that it becomes in the source. -/
structure Rebased (source value : Text) (s r r' : Span) : Prop where
  /-- Nothing is taken off where there is nothing. -/
  clear : 1 ≤ r.start ∧ 1 ≤ r.stop
  start : r'.start + 1 = r.start + s.start
  stop : r'.stop + 1 = r.stop + s.start
  inside : s.start ≤ r'.start ∧ r'.start ≤ r'.stop ∧ r'.stop ≤ s.stop
  text : ∃ x, Text.slice? source r' = some x ∧ Text.slice? ('(' :: value ++ [')']) r = some x

/-- The value has the same text in its place and between the parentheses. -/
theorem slice?_bracketed {source value : Text} {s : Span} (h : Text.slice? source s = some value)
    {i j : Nat} (hj : j ≤ value.size) :
    Text.slice? source ⟨s.start + i, s.start + j⟩ =
      Text.slice? ('(' :: value ++ [')']) ⟨1 + i, 1 + j⟩ := by
  obtain ⟨a, b, rfl, hstart, -⟩ := Text.slice?_eq_some.mp h
  have hbracketed := Text.slice?_middle ['('] value [')'] (i := i) hj
  rw [← hstart, Text.slice?_middle a value b hj]
  exact hbracketed.symm

theorem rebased {source value : Text} {s r : Span} (h : Text.slice? source s = some value)
    (haligned : r.Aligned ('(' :: value ++ [')'])) (hforward : r.start ≤ r.stop)
    (hstart : 1 ≤ r.start) (hstop : r.stop ≤ value.size + 1) :
    Rebased source value s r (r.map fun offset => offset + s.start - 1) := by
  obtain ⟨x, hx⟩ := haligned.1.exists_slice? haligned.2 hforward
  obtain ⟨hsize, -⟩ := Text.bounds_of_slice? h
  have hsame := slice?_bracketed h (i := r.start - 1) (j := r.stop - 1) (by omega)
  have hmoved (n : Nat) (hn : 1 ≤ n) : s.start + (n - 1) = n + s.start - 1 := by omega
  rw [hmoved r.start hstart, hmoved r.stop (by omega), Nat.add_sub_cancel' hstart,
    Nat.add_sub_cancel' (Nat.le_trans hstart hforward)] at hsame
  refine ⟨⟨hstart, by omega⟩, ?_, ?_, ?_, x, hsame.trans hx, hx⟩
  · show r.start + s.start - 1 + 1 = r.start + s.start
    omega
  · show r.stop + s.start - 1 + 1 = r.stop + s.start
    omega
  · show s.start ≤ r.start + s.start - 1 ∧ r.start + s.start - 1 ≤ r.stop + s.start - 1 ∧
      r.stop + s.start - 1 ≤ s.stop
    omega

/-- A unit `u` of the text in parentheses, and the unit `v` that it becomes in the source. -/
structure LeadsBack (source value : Text) (s : Span) (u v : ClassUnit) : Prop where
  moved : v = u.map fun offset => offset + s.start - 1
  ranges : List.Forall₂ (Rebased source value s) u.ranges v.ranges

/-- **The units of a tree lead back to the value**, if they keep clear of the parentheses. -/
theorem forall₂_leadsBack {source value : Text} {s : Span} (h : Text.slice? source s = some value)
    {e : Script.Expr} (hformed : e.WellFormed) (haligned : e.Aligned ('(' :: value ++ [')']))
    (hclear : ∀ u ∈ e.units ('(' :: value ++ [')']),
      1 ≤ u.span.start ∧ u.span.stop ≤ value.size + 1) :
    List.Forall₂ (LeadsBack source value s) (e.units ('(' :: value ++ [')']))
      ((e.units ('(' :: value ++ [')'])).map (·.map fun offset => offset + s.start - 1)) := by
  rw [List.forall₂_map_right_iff, List.forall₂_same]
  intro u hu
  obtain ⟨hstart, hstop⟩ := hclear u hu
  refine ⟨rfl, ?_⟩
  rw [ClassUnit.ranges_map _ hstart, List.forall₂_map_right_iff, List.forall₂_same]
  intro r hr
  have hreadable := Script.readable_units hformed haligned hu r hr
  exact rebased h hreadable.aligned hreadable.forward (Nat.le_trans hstart hreadable.start)
    (Nat.le_trans hreadable.stop hstop)

/-- **A bound value leads back to its place.** The units of a value are those of the text in
parentheses, one for one, unless the value is blank. Each of their ranges comes from one there, lies
in the value and reads the same; the parenthesis is taken off only where it stood in front. -/
theorem binding_offsets_map_back {source value : Text} {s : Span}
    (h : Text.slice? source s = some value) :
    List.Forall₂ (LeadsBack source value s)
      (if Text.allBlank value then []
        else Script.programUnits .javaScript ('(' :: value ++ [')']))
      (bindingValueUnits value s.start) := by
  unfold bindingValueUnits
  split
  · exact .nil
  · obtain ⟨els, hblock⟩ := Script.block_programUnits .javaScript ('(' :: value ++ [')'])
    rw [size_bracketed] at hblock
    have hclear := hblock.inside
    unfold Script.programUnits at hclear ⊢
    cases hread : Script.readProgram .javaScript
        (Script.lex .javaScript ('(' :: value ++ [')'])) with
    | none => exact .nil
    | some e =>
        rw [hread] at hclear
        refine forall₂_leadsBack h (Script.wellFormed_readProgram hread)
          (Script.aligned_readProgram hread) fun u hu => ?_
        obtain ⟨hstart, -, hstop⟩ := hclear u hu
        exact ⟨hstart, Nat.le_of_lt_succ hstop⟩

/-- A string with a character of two bytes, and behind it an object with a key of two classes. -/
def boundText : Text := "<p :class=\"['é a', \x7b 'd c': x \x7d]\">".toList

def boundValue : Text := "['é a', \x7b 'd c': x \x7d]".toList

theorem binding_offsets_map_back_nested :
    Text.slice? boundText ⟨11, 33⟩ = some boundValue ∧
    (bindingValueUnits boundValue 11).map ClassUnit.ranges =
      [[⟨13, 17⟩], [⟨22, 30⟩, ⟨22, 30⟩, ⟨23, 26⟩]] ∧
    List.Forall₂ (LeadsBack boundText boundValue ⟨11, 33⟩)
      (if Text.allBlank boundValue then []
        else Script.programUnits .javaScript ('(' :: boundValue ++ [')']))
      (bindingValueUnits boundValue 11) := by
  have hvalue : Text.slice? boundText ⟨11, 33⟩ = some boundValue := by decide +kernel
  exact ⟨hvalue, by decide +kernel, binding_offsets_map_back hvalue⟩

end Markup

end ClassSort
