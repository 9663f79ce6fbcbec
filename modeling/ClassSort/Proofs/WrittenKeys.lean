import ClassSort.Proofs.BindingOffsets
import ClassSort.Proofs.CanonicalOrder
import ClassSort.Proofs.EntryOrder

/-!
# Keys that are written alike

Each key of an object is sorted on its own, and nothing looks at two keys together. So two keys may
come out as one: `'b a'` and `'a b'` are both written `'a b'`, and the second value hides the first.

When does this happen? A sorted list keeps its outer blanks, and **the classes of one rank in their
order**; from these it can be put together again. So different lists are written alike exactly if
they agree in these (`sort_eq_sort_iff`). Keys that are not class lists are written as they stand.

It makes no difference how the object is sorted. If all members can be moved they are put in order,
else each key is sorted in its place, but what is written for a key is the same.
-/

namespace ClassSort

/-! ## Lists that are sorted to the same text -/

namespace ClassList

/-- Lists that differ only in the blanks between the classes and in the order of classes of
different ranks. -/
structure Alike (r : Ranking) (v w : Text) : Prop where
  unmarked : Text.includes interpolationMark v = false ∧ Text.includes interpolationMark w = false
  leading : (divide v).leading = (divide w).leading
  trailing : lastGap (divide v).pieces = lastGap (divide w).pieces
  words : ∀ k : Rank, (((divide v).pieces.map (·.word)).filter fun u => r u = k) =
    ((divide w).pieces.map (·.word)).filter fun u => r u = k

variable {r : Ranking} {v w : Text}

theorem Alike.sort_eq (h : Alike r v w) : sort r {} v = sort r {} w := by
  refine sort_congr h.unmarked.1 h.unmarked.2 h.leading h.trailing ?_
  exact (stablySorted_sortBy r _).unique (stablySorted_sortBy r _) h.words

/-- What two lists have in common can be read off the list they are sorted to. -/
theorem alike_of_sort_eq (hv : Text.includes interpolationMark v = false)
    (hw : Text.includes interpolationMark w = false) (h : sort r {} v = sort r {} w) :
    Alike r v w := by
  have hdivide := congrArg divide h
  rw [divide_sort hv (partitioned_free _), divide_sort hw (partitioned_free _)] at hdivide
  simp only [List.nil_append, List.append_nil, Division.mk.injEq] at hdivide
  obtain ⟨hleading, hpieces⟩ := hdivide
  refine ⟨⟨hv, hw⟩, hleading, ?_, ?_⟩
  · have htrailing := congrArg lastGap hpieces
    rwa [lastGap_sortFree, lastGap_sortFree] at htrailing
  · intro k
    have hwords := congrArg (List.map (·.word)) hpieces
    rw [map_word_sortFree, map_word_sortFree] at hwords
    rw [← filter_sortBy r, hwords, filter_sortBy]

/-- **Different lists are sorted to the same text exactly if they are alike.** -/
theorem sort_eq_sort_iff (hne : v ≠ w) : sort r {} v = sort r {} w ↔ Alike r v w := by
  constructor
  · intro h
    have hmark : Text.includes interpolationMark v = Text.includes interpolationMark w := by
      rw [← includes_mark_sort r {} v, h, includes_mark_sort]
    cases hv : Text.includes interpolationMark v with
    | true =>
        -- both lists are left alone, so they were the same before
        rw [sort_of_mark hv, sort_of_mark (hmark ▸ hv)] at h
        exact absurd h hne
    | false => exact alike_of_sort_eq hv (hmark ▸ hv) h
  · exact Alike.sort_eq

end ClassList

/-! ## What is written for a key -/

namespace Entry

/-- The text of a key, and whether it is a class list. -/
structure KeyText where
  text : Text
  isClassList : Bool
deriving Repr, DecidableEq

namespace KeyText

/-- The key as it is written. -/
def written (r : Ranking) (k : KeyText) : Text :=
  if k.isClassList then ClassList.sort r {} k.text else k.text

/-- Keys that are alike as class lists. One that is not sorted has to be in order as it stands. -/
structure Alike (r : Ranking) (k l : KeyText) : Prop where
  lists : ClassList.Alike r k.text l.text
  left : k.isClassList = false → ClassList.sort r {} k.text = k.text
  right : l.isClassList = false → ClassList.sort r {} l.text = l.text

variable {r : Ranking} {k l : KeyText}

theorem sort_written (r : Ranking) (k : KeyText) :
    ClassList.sort r {} (k.written r) = ClassList.sort r {} k.text := by
  unfold written
  split
  · exact ClassList.sort_sort r {} k.text
  · rfl

theorem written_eq_sort (h : k.isClassList = false → ClassList.sort r {} k.text = k.text) :
    k.written r = ClassList.sort r {} k.text := by
  unfold written
  split
  · rfl
  · rename_i hlist
    exact (h (by simpa using hlist)).symm

/-- A key that is left alone and written like another one is sorted already. -/
theorem sort_eq_self (hne : k.text ≠ l.text) (h : k.written r = l.written r)
    (hk : k.isClassList = false) : ClassList.sort r {} k.text = k.text := by
  have hk' : k.written r = k.text := by rw [written, hk]; rfl
  cases hl : l.isClassList with
  | true =>
      have hl' : l.written r = ClassList.sort r {} l.text := by rw [written, hl]; rfl
      rw [← hk', h, hl', ClassList.sort_sort]
  | false =>
      have hl' : l.written r = l.text := by rw [written, hl]; rfl
      exact absurd (by rw [← hk', h, hl']) hne

/-- **Different keys are written as the same text exactly if they are alike.** -/
theorem written_eq_written_iff (hne : k.text ≠ l.text) :
    k.written r = l.written r ↔ Alike r k l := by
  constructor
  · intro h
    have hsort : ClassList.sort r {} k.text = ClassList.sort r {} l.text := by
      rw [← sort_written r k, h, sort_written]
    exact ⟨(ClassList.sort_eq_sort_iff hne).mp hsort, sort_eq_self hne h,
      sort_eq_self hne.symm h.symm⟩
  · intro h
    rw [written_eq_sort h.left, written_eq_sort h.right]
    exact h.lists.sort_eq

end KeyText

/-- The keys of some entries. -/
def keyTexts (source : Text) (es : List Entry) : List KeyText :=
  es.filterMap fun e => (Text.slice? source e.key.span).map fun text => ⟨text, e.key.isClassList⟩

/-- No two keys have the same text. -/
def DistinctKeys (source : Text) (es : List Entry) : Prop :=
  (keyTexts source es).Pairwise fun k l => k.text ≠ l.text

instance (source : Text) (es : List Entry) : Decidable (DistinctKeys source es) :=
  inferInstanceAs (Decidable (List.Pairwise _ _))

/-- The key of an entry that was taken apart. -/
def Parts.keyText (m : Parts) : KeyText := ⟨m.key, m.isClassList⟩

theorem keyTexts_layOut {source back : Text} (ms : List Parts) (gs : List Text) :
    ∀ front : Text, source = front ++ (interleave (ms.map Parts.text) gs ++ back) →
      keyTexts source (layOut (Text.size front) ms gs) = ms.map Parts.keyText := by
  induction ms generalizing gs with
  | nil =>
      intro front h
      rfl
  | cons m ms ih =>
      intro front h
      obtain ⟨hfirst, hothers⟩ := source_cons h
      have hnext := ih gs.tail _ hothers
      rw [Text.size_append, Text.size_append] at hnext
      rw [layOut, List.map_cons, ← hnext]
      unfold keyTexts
      rw [List.filterMap_cons, slice?_key m hfirst]
      rfl

theorem Arrangement.keyTexts_entries (o : Arrangement) (front back : Text) :
    keyTexts (front ++ o.text ++ back) (o.entries (Text.size front)) =
      o.members.map Parts.keyText :=
  keyTexts_layOut o.members o.gaps front (List.append_assoc _ _ _)

/-- The keys of a row are distinct if no two members have the same one. -/
theorem Arrangement.distinctKeys_entries (o : Arrangement) (front back : Text) :
    DistinctKeys (front ++ o.text ++ back) (o.entries (Text.size front)) ↔
      o.members.Pairwise fun m n => m.key ≠ n.key := by
  unfold DistinctKeys
  rw [o.keyTexts_entries, List.pairwise_map]
  rfl

/-- Keys that were distinct stay so exactly if no two of them are alike. -/
theorem pairwise_sortKey_iff {r : Ranking} {ms : List Parts}
    (h : ms.Pairwise fun m n => m.key ≠ n.key) :
    (ms.Pairwise fun m n => (m.sortKey r).key ≠ (n.sortKey r).key) ↔
      ms.Pairwise fun m n => ¬ m.keyText.Alike r n.keyText := by
  have hpair {m n : Parts} (hne : m.keyText.text ≠ n.keyText.text) :
      (m.sortKey r).key ≠ (n.sortKey r).key ↔ ¬ m.keyText.Alike r n.keyText := by
    rw [← KeyText.written_eq_written_iff hne]
    rfl
  constructor
  · intro hwritten
    exact (h.and hwritten).imp fun ⟨hne, hmn⟩ => (hpair hne).mp hmn
  · intro hunlike
    exact (h.and hunlike).imp fun ⟨hne, hmn⟩ => (hpair hne).mpr hmn

/-! ## Keys sorted in their places -/

/-- The edit that sorts the key of an entry and leaves the entry where it is. -/
def keyEdit? (source : Text) (r : Ranking) (e : Entry) : Option Edit :=
  if e.key.isClassList then ClassSpan.edit? source r ⟨e.key.span, .objectKey, .string, {}⟩
  else none

section

variable {source front back rest out : Text} {es : List Edit} {r : Ranking}

theorem keyEdit?_entryAt (m : Parts) (h : source = front ++ (m.text ++ back)) :
    keyEdit? source r (m.entryAt (Text.size front)) =
      Edit.unlessSame (m.entryAt (Text.size front)).key.span m.key (m.sortKey r).key := by
  have hkey := slice?_key m h
  have hlist : (m.entryAt (Text.size front)).key.isClassList = m.isClassList := rfl
  unfold keyEdit? Parts.sortKey
  rw [hlist]
  dsimp only
  cases m.isClassList with
  | true =>
      rw [if_pos rfl, if_pos rfl]
      unfold ClassSpan.edit?
      rw [hkey]
      rfl
  | false =>
      rw [if_neg Bool.false_ne_true, if_neg Bool.false_ne_true, Edit.unlessSame, if_pos rfl]

/-- In a member the key is replaced and everything else kept. -/
theorem replaced_member (m : Parts) (h : source = front ++ (m.text ++ back))
    (hrest : Edit.Replaced (Text.size front + Text.size m.text) es rest out) :
    Edit.Replaced (Text.size front)
      ((keyEdit? source r (m.entryAt (Text.size front))).toList ++ es)
      (m.text ++ rest) ((m.sortKey r).text ++ out) := by
  rw [keyEdit?_entryAt m h, Edit.unlessSame]
  by_cases hsame : (m.sortKey r).key = m.key
  · -- there is no edit, and the whole member is kept
    have htext : (m.sortKey r).text = m.text := by
      show m.before ++ (m.sortKey r).key ++ m.after = m.text
      rw [hsame]
      rfl
    rw [if_pos hsame, htext]
    exact hrest.keep
  · -- behind the key the rest of the member is kept, and then come the other edits
    have hbehind : Edit.Replaced (m.entryAt (Text.size front)).key.span.stop es
        (m.after ++ rest) (m.after ++ out) := by
      refine Edit.Replaced.keep ?_
      rw [Parts.text, Text.size_append, Text.size_append, ← Nat.add_assoc, ← Nat.add_assoc] at hrest
      exact hrest
    have hmade : Edit.Replaced (Text.size front)
        (⟨(m.entryAt (Text.size front)).key.span, (m.sortKey r).key⟩ :: es)
        (m.before ++ (m.key ++ (m.after ++ rest)))
        (m.before ++ ((m.sortKey r).key ++ (m.after ++ out))) := .cons rfl rfl hbehind
    rw [if_neg hsame]
    show Edit.Replaced _ _ (m.before ++ m.key ++ m.after ++ rest)
      (m.before ++ (m.sortKey r).key ++ m.after ++ out)
    rw [List.append_assoc, List.append_assoc, List.append_assoc, List.append_assoc]
    exact hmade

theorem replaced_keys (ms : List Parts) (gs : List Text) :
    ∀ front : Text, source = front ++ (interleave (ms.map Parts.text) gs ++ back) →
      Edit.Replaced (Text.size front)
        ((layOut (Text.size front) ms gs).flatMap fun e => (keyEdit? source r e).toList)
        (interleave (ms.map Parts.text) gs ++ back)
        (interleave ((ms.map (Parts.sortKey r)).map Parts.text) gs ++ back) := by
  induction ms generalizing gs with
  | nil =>
      intro front h
      exact .nil _ _
  | cons m ms ih =>
      intro front h
      obtain ⟨hfirst, hothers⟩ := source_cons h
      have hnext := ih gs.tail _ hothers
      rw [Text.size_append, Text.size_append] at hnext
      rw [layOut, List.flatMap_cons, List.map_cons, List.map_cons, List.map_cons, interleave_cons,
        interleave_cons]
      simp only [List.append_assoc]
      exact replaced_member m hfirst hnext.keep

end

/-- The row with its keys sorted and its members where they are. -/
def Arrangement.withSortedKeys (r : Ranking) (o : Arrangement) : Arrangement :=
  o.withMembers (o.members.map (Parts.sortKey r)) (List.length_map _)

/-- **Sorting the keys in their places changes the keys alone.** -/
theorem Arrangement.applyAll_keyEdits (r : Ranking) (o : Arrangement) (front back : Text) :
    Edit.applyAll (front ++ o.text ++ back) ((o.entries (Text.size front)).flatMap fun e =>
        (keyEdit? (front ++ o.text ++ back) r e).toList) =
      some (front ++ (o.withSortedKeys r).text ++ back) := by
  have hsource : front ++ o.text ++ back = front ++ (o.text ++ back) := List.append_assoc _ _ _
  have hkeys := replaced_keys (r := r) o.members o.gaps front hsource
  rw [← Nat.zero_add (Text.size front)] at hkeys
  have hmade := hkeys.keep.applyAll
  rw [Nat.zero_add, ← List.append_assoc, ← List.append_assoc] at hmade
  exact hmade

end Entry

/-! ## Objects -/

namespace Script

open Entry

/-- The range of the text of a key, without the quotes of a string. -/
def Key.inner : Key → Span
  | .string s _ => if s.start + 2 ≤ s.stop then unquoted s else s
  | .name s | .other s => s

/-- Whether a key is a class list: a string that holds something and no escapes. -/
def Key.isClassList : Key → Bool
  | .string s escaped => (content? s escaped).isSome
  | .name _ | .other _ => false

/-- A member with a key, whether it can be moved or not. -/
def keyed? : Member → Option Entry
  | .pair p k _ => some ⟨p, k.inner, k.isClassList⟩
  | .other _ => none

/-- The members with a key. -/
def keyed (members : List Member) : List Entry := members.filterMap keyed?

variable {source : Text} {members : List Member}

/-- The content of a string is the text of the key. -/
theorem inner_of_content? {s c : Span} {escaped : Bool} (h : content? s escaped = some c) :
    (Key.string s escaped).inner = c := by
  obtain ⟨rfl, hforward⟩ := eq_unquoted_of_content? h
  have hquotes : s.start + 2 ≤ s.stop := by
    have : s.start + 1 < s.stop - 1 := hforward
    omega
  rw [Key.inner, if_pos hquotes]

/-- A member that can be moved has a key. -/
theorem keyed?_of_movable {m : Member} {e : Entry} (h : entryOf? m = some e) : keyed? m = some e := by
  cases m with
  | other s => exact absurd h (by simp [entryOf?])
  | pair p k v =>
      obtain ⟨key, hkey, rfl⟩ := Option.map_eq_some_iff.mp h
      cases k with
      | string s escaped =>
          obtain ⟨c, hc, rfl⟩ := Option.map_eq_some_iff.mp hkey
          rw [keyed?, inner_of_content? hc, Key.isClassList, hc]
          rfl
      | name s =>
          obtain rfl := Option.some.inj hkey
          rfl
      | other s => exact absurd hkey (by simp [entryKey?])

theorem keyed_of_mapM {es : List Entry} (h : members.mapM entryOf? = some es) :
    keyed members = es := by
  have hall := forall₂_of_mapM h
  clear h
  induction hall with
  | nil => rfl
  | cons he _ ih =>
      rw [keyed, List.filterMap_cons_some (keyed?_of_movable he)]
      exact congrArg (_ :: ·) ih

/-- A key that stays in its place is edited if it is a class list. -/
theorem edits_keyUnits (source : Text) (r : Ranking) (m : Member) :
    ClassUnit.edits source r (keyUnits m) =
      (keyed? m).toList.flatMap fun e => (keyEdit? source r e).toList := by
  cases m with
  | other s => rfl
  | pair p k v =>
      cases k with
      | name s => rfl
      | other s => rfl
      | string s escaped =>
          rw [keyed?, Option.toList_some, List.flatMap_singleton, keyUnits, stringUnits, keyEdit?,
            Key.isClassList]
          cases hc : content? s escaped with
          | none => rfl
          | some c =>
              rw [inner_of_content? hc]
              exact ClassUnit.edits_singleton source r _

/-- The edits of an object: one for all members, if all can be moved, and else one for each key. -/
theorem edits_objectUnits (source : Text) (r : Ranking) (members : List Member) :
    ClassUnit.edits source r (objectUnits members) = (Entry.edit? source r (keyed members)).toList ∨
      ClassUnit.edits source r (objectUnits members) =
        (keyed members).flatMap fun e => (keyEdit? source r e).toList := by
  unfold objectUnits
  split
  · -- an object without members has no edit in either way
    rename_i hes
    rw [keyed_of_mapM hes]
    exact .inr rfl
  · rename_i es _ hes
    rw [keyed_of_mapM hes]
    exact .inl (ClassUnit.edits_singleton source r (.entries es))
  · refine .inr ?_
    calc ClassUnit.edits source r (members.flatMap keyUnits)
      _ = members.flatMap fun m => ClassUnit.edits source r (keyUnits m) := by
          simp only [ClassUnit.edits, List.filterMap_eq_flatMap_toList, List.flatMap_assoc]
      _ = members.flatMap fun m => (keyed? m).toList.flatMap fun e =>
            (keyEdit? source r e).toList := by simp only [edits_keyUnits]
      _ = (keyed members).flatMap fun e => (keyEdit? source r e).toList := by
          rw [keyed, List.filterMap_eq_flatMap_toList, List.flatMap_assoc]

/-- The text of a key can be read, and lies in the key. -/
theorem readable_inner {k : Key} (h : k.Aligned source) (hforward : k.span.start ≤ k.span.stop) :
    (∃ text, Text.slice? source k.inner = some text) ∧
      k.span.start ≤ k.inner.start ∧ k.inner.stop ≤ k.span.stop := by
  have hwhole : ∃ text, Text.slice? source k.span = some text :=
    h.ends.1.exists_slice? h.ends.2 hforward
  cases k with
  | name s => exact ⟨hwhole, Nat.le_refl _, Nat.le_refl _⟩
  | other s => exact ⟨hwhole, Nat.le_refl _, Nat.le_refl _⟩
  | string s escaped =>
      rw [Key.inner]
      split
      · rename_i hquotes
        obtain ⟨hstart, hstop⟩ := h.quotes s escaped rfl
        refine ⟨hstart.exists_slice? hstop ?_, Nat.le_succ _, Nat.sub_le _ _⟩
        show s.start + 1 ≤ s.stop - 1
        omega
      · exact ⟨hwhole, Nat.le_refl _, Nat.le_refl _⟩

theorem exists_of_mem_keyed {e : Entry} (h : e ∈ keyed members) :
    ∃ p k v, .pair p k v ∈ members ∧ e = ⟨p, k.inner, k.isClassList⟩ := by
  obtain ⟨m, hm, hme⟩ := List.mem_filterMap.mp h
  cases m with
  | other s => exact absurd hme (by simp [keyed?])
  | pair p k v => exact ⟨p, k, v, hm, (Option.some.inj hme).symm⟩

theorem span_of_keyed? {m : Member} {e : Entry} (h : keyed? m = some e) : e.span = m.span := by
  cases m with
  | other s => exact absurd h (by simp [keyed?])
  | pair p k v =>
      obtain rfl := Option.some.inj h
      rfl

/-- **The members of an object that have a key are in place.** -/
theorem inPlace_keyed {s : Span} (hformed : (Expr.object s members).WellFormed)
    (haligned : (Expr.object s members).Aligned source) : InPlace source (keyed members) := by
  obtain ⟨hrow, hpairs⟩ : Span.Row s.start s.stop (members.map Member.span) ∧
      ∀ p k v, .pair p k v ∈ members → Span.Row p.start p.stop [k.span, v.span] := by
    cases hformed with
    | object hrow hpairs => exact ⟨hrow, hpairs⟩
  have hends : ∀ p k v, .pair p k v ∈ members → p.Aligned source ∧ k.Aligned source := by
    cases haligned with
    | object _ hends => exact hends
  refine ⟨?_, ?_, ?_, ?_⟩
  · intro e he
    obtain ⟨p, k, v, hm, rfl⟩ := exists_of_mem_keyed he
    obtain ⟨hstart, hstop⟩ := (hends p k v hm).1
    exact hstart.exists_slice? hstop (hrow.inside (List.mem_map_of_mem hm)).2.1
  · intro e he
    obtain ⟨p, k, v, hm, rfl⟩ := exists_of_mem_keyed he
    exact (readable_inner (hends p k v hm).2 (hpairs p k v hm).2.1).1
  · intro e he
    obtain ⟨p, k, v, hm, rfl⟩ := exists_of_mem_keyed he
    obtain ⟨hstart, hforward, hvalue⟩ := hpairs p k v hm
    obtain ⟨-, hfirst, hlast⟩ := readable_inner (hends p k v hm).2 hforward
    have hbehind := hvalue.le
    exact ⟨Nat.le_trans hstart hfirst, Nat.le_trans hlast hbehind⟩
  · have hordered := List.pairwise_map.mp hrow.pairwise
    refine List.pairwise_filterMap.mpr (hordered.imp ?_)
    intro m n hmn e he f hf
    rw [span_of_keyed? he, span_of_keyed? hf]
    exact hmn

/-- An object is written with its keys sorted, in one way or the other. -/
theorem exists_written (r : Ranking) (h : InPlace source (keyed members)) :
    ∃ (front back : Text) (o new : Arrangement),
      source = front ++ o.text ++ back ∧ keyed members = o.entries (Text.size front) ∧
      Edit.applyAll source (ClassUnit.edits source r (objectUnits members)) =
        some (front ++ new.text ++ back) ∧
      new.members.Perm (o.members.map (Parts.sortKey r)) ∧ new.gaps = o.gaps := by
  obtain ⟨front, o, back, rfl, hentries⟩ := exists_arrangement h
  rcases edits_objectUnits (front ++ o.text ++ back) r members with hedits | hedits
  · refine ⟨front, back, o, o.sorted r, rfl, hentries, ?_, ClassList.sortBy_perm _ _, rfl⟩
    rw [hedits, hentries]
    exact o.applyAll_edit? r front back
  · refine ⟨front, back, o, o.withSortedKeys r, rfl, hentries, ?_, .refl _, rfl⟩
    rw [hedits, hentries]
    exact o.applyAll_keyEdits r front back

/--
**Keys stay distinct unless two of them are alike.**

The members of an object that have a key are a row in the source. Sorting the object writes another
row in its place, with the same members, their keys sorted, and the same texts between them. If no
key was there twice, then none is there twice afterwards **exactly if no two keys were alike**.
-/
theorem keys_distinct_unless_alike {s : Span} (hformed : (Expr.object s members).WellFormed)
    (haligned : (Expr.object s members).Aligned source)
    (hdistinct : DistinctKeys source (keyed members)) (r : Ranking) :
    ∃ (front back : Text) (o new : Arrangement),
      source = front ++ o.text ++ back ∧ keyed members = o.entries (Text.size front) ∧
      Edit.applyAll source (ClassUnit.edits source r (objectUnits members)) =
        some (front ++ new.text ++ back) ∧
      new.members.Perm (o.members.map (Parts.sortKey r)) ∧ new.gaps = o.gaps ∧
      (DistinctKeys (front ++ new.text ++ back) (new.entries (Text.size front)) ↔
        (keyTexts source (keyed members)).Pairwise fun k l => ¬ k.Alike r l) := by
  obtain ⟨front, back, o, new, rfl, hentries, hout, hmembers, hgaps⟩ :=
    exists_written r (inPlace_keyed hformed haligned)
  refine ⟨front, back, o, new, rfl, hentries, hout, hmembers, hgaps, ?_⟩
  rw [hentries, o.distinctKeys_entries] at hdistinct
  rw [hentries, new.distinctKeys_entries, o.keyTexts_entries, List.pairwise_map,
    hmembers.pairwise_iff Ne.symm, List.pairwise_map]
  exact pairwise_sortKey_iff hdistinct

/-- Two keys that differ in the blanks, inside and at the end, and a spread between them. -/
def spreadText : Text := "(\x7b 'b a': x, ...s, 'b  a ': y \x7d)".toList

def spreadMembers : List Member :=
  [.pair ⟨3, 11⟩ (.string ⟨3, 8⟩ false) (.other ⟨10, 11⟩), .other ⟨13, 17⟩,
   .pair ⟨19, 29⟩ (.string ⟨19, 26⟩ false) (.other ⟨28, 29⟩)]

theorem readProgram_spreadText : readProgram .javaScript (lex .javaScript spreadText) =
    some (.paren ⟨0, 32⟩ (.object ⟨1, 31⟩ spreadMembers)) := by
  with_unfolding_all rfl

theorem keys_distinct_unless_alike_spread :
    (Expr.object ⟨1, 31⟩ spreadMembers).WellFormed ∧
    (Expr.object ⟨1, 31⟩ spreadMembers).Aligned spreadText ∧
    DistinctKeys spreadText (keyed spreadMembers) ∧
    ∃ (front back : Text) (o new : Arrangement),
      spreadText = front ++ o.text ++ back ∧ keyed spreadMembers = o.entries (Text.size front) ∧
      Edit.applyAll spreadText (ClassUnit.edits spreadText
        (Ranking.ofNames ["a".toList, "b".toList]) (objectUnits spreadMembers)) =
          some (front ++ new.text ++ back) ∧
      DistinctKeys (front ++ new.text ++ back) (new.entries (Text.size front)) := by
  have hreach : Expr.Reaches (.paren ⟨0, 32⟩ (.object ⟨1, 31⟩ spreadMembers))
      (.object ⟨1, 31⟩ spreadMembers) := .paren (.refl _)
  have hformed := (wellFormed_readProgram readProgram_spreadText).of_reaches hreach
  have haligned := (aligned_readProgram readProgram_spreadText).of_reaches hreach
  have hdistinct : DistinctKeys spreadText (keyed spreadMembers) := by decide
  obtain ⟨front, back, o, new, hsource, hentries, hout, -, -, hkeys⟩ :=
    keys_distinct_unless_alike hformed haligned hdistinct (.ofNames ["a".toList, "b".toList])
  refine ⟨hformed, haligned, hdistinct, front, back, o, new, hsource, hentries, hout,
    hkeys.mpr ?_⟩
  have hkeyTexts : keyTexts spreadText (keyed spreadMembers) =
      [⟨"b a".toList, true⟩, ⟨"b  a ".toList, true⟩] := by decide
  rw [hkeyTexts, List.pairwise_pair]
  intro halike
  -- the second key ends with a blank, which sorting keeps
  exact absurd halike.lists.trailing (by decide)

/-- Two members whose keys have the same classes, from `pos` on. -/
def reorderedMembers (pos : Nat) : List Member :=
  [.pair ⟨pos, pos + 8⟩ (.string ⟨pos, pos + 5⟩ false) (.other ⟨pos + 7, pos + 8⟩),
   .pair ⟨pos + 10, pos + 18⟩ (.string ⟨pos + 10, pos + 15⟩ false) (.other ⟨pos + 17, pos + 18⟩)]

/-- Keys with the same classes in another order become one, whether the members can be moved or a
spread keeps them in their places. -/
theorem reordered_keys_collide :
    (Parser.babel.language.units "<i class=\x7b\x7b'b a': x, 'a b': y\x7d\x7d/>".toList =
        objectUnits (reorderedMembers 11) ∧
      DistinctKeys "<i class=\x7b\x7b'b a': x, 'a b': y\x7d\x7d/>".toList
        (keyed (reorderedMembers 11)) ∧
      Parser.babel.sortClasses (Ranking.ofNames ["a".toList, "b".toList])
          "<i class=\x7b\x7b'b a': x, 'a b': y\x7d\x7d/>".toList =
        some "<i class=\x7b\x7b'a b': x, 'a b': y\x7d\x7d/>".toList ∧
      ¬ DistinctKeys "<i class=\x7b\x7b'a b': x, 'a b': y\x7d\x7d/>".toList
        (keyed (reorderedMembers 11))) ∧
    Parser.babel.language.units "<i class=\x7b\x7b...s, 'b a': x, 'a b': y\x7d\x7d/>".toList =
        objectUnits (.other ⟨11, 15⟩ :: reorderedMembers 17) ∧
      DistinctKeys "<i class=\x7b\x7b...s, 'b a': x, 'a b': y\x7d\x7d/>".toList
        (keyed (.other ⟨11, 15⟩ :: reorderedMembers 17)) ∧
      Parser.babel.sortClasses (Ranking.ofNames ["a".toList, "b".toList])
          "<i class=\x7b\x7b...s, 'b a': x, 'a b': y\x7d\x7d/>".toList =
        some "<i class=\x7b\x7b...s, 'a b': x, 'a b': y\x7d\x7d/>".toList ∧
      ¬ DistinctKeys "<i class=\x7b\x7b...s, 'a b': x, 'a b': y\x7d\x7d/>".toList
        (keyed (.other ⟨11, 15⟩ :: reorderedMembers 17)) := by
  have hmoved : Parser.babel.language.units
      "<i class=\x7b\x7b'b a': x, 'a b': y\x7d\x7d/>".toList =
        objectUnits (reorderedMembers 11) := by decide +kernel
  have hkept : Parser.babel.language.units
      "<i class=\x7b\x7b...s, 'b a': x, 'a b': y\x7d\x7d/>".toList =
        objectUnits (.other ⟨11, 15⟩ :: reorderedMembers 17) := by decide +kernel
  refine ⟨⟨hmoved, by decide, ?_, by decide⟩, hkept, by decide, ?_, by decide⟩
  · rw [Parser.sortClasses, hmoved]
    decide +kernel
  · rw [Parser.sortClasses, hkept]
    decide +kernel

end Script

end ClassSort
