import ClassSort.Proofs.Replacements

/-!
# The order of entries

An object is a row of members with texts between them. `Arrangement` is such a row without any
offsets: each member is its key and what stands on either side of it, and the texts between the
members are the gaps. Offsets follow from an arrangement and the place where it begins
(`Arrangement.entries`), and every list of entries that can be read comes from one in this way.

Sorting is then a change of the row alone. The keys are sorted, the members are put in the order of
their keys, **and the gaps stay**. Where the members are afterwards need not be computed from where
they were: it is where the new row puts them. Read there, they are in order, so that sorting them
again changes nothing.
-/

namespace ClassSort.Entry

/-- An entry taken apart: its key, and what stands in the entry on either side of the key. -/
structure Parts where
  before : Text
  key : Text
  after : Text
  /-- Whether the key is a class list. -/
  isClassList : Bool
deriving Repr, DecidableEq

namespace Parts

/-- The text of the entry. -/
def text (m : Parts) : Text := m.before ++ m.key ++ m.after

/-- The entry, if it begins at `pos`. -/
def entryAt (pos : Nat) (m : Parts) : Entry :=
  ⟨⟨pos, pos + Text.size m.text⟩,
    ⟨⟨pos + Text.size m.before, pos + Text.size m.before + Text.size m.key⟩, m.isClassList⟩⟩

/-- The entry with its key sorted, if that is a class list. Nothing else changes. -/
def sortKey (r : Ranking) (m : Parts) : Parts :=
  { m with key := if m.isClassList then ClassList.sort r {} m.key else m.key }

/-- The rank of an entry: that of the first class of its key. -/
def rank (r : Ranking) (m : Parts) : Rank := keyRank r m.key

theorem sortKey_sortKey (r : Ranking) (m : Parts) : (m.sortKey r).sortKey r = m.sortKey r := by
  unfold sortKey
  dsimp only
  split
  · rw [ClassList.sort_sort]
  · rfl

end Parts

/-- Members in a row, and the texts between them. -/
@[ext] structure Arrangement where
  members : List Parts
  gaps : List Text
  fits : gaps.length = members.length - 1

/-- Entries one behind the other from `pos` on, with gaps between them. -/
def layOut : Nat → List Parts → List Text → List Entry
  | _, [], _ => []
  | pos, m :: ms, gs =>
    m.entryAt pos :: layOut (pos + Text.size m.text + Text.size (gs.headD [])) ms gs.tail

theorem interleave_cons (m : Text) (ms gs : List Text) :
    interleave (m :: ms) gs = m ++ (gs.headD [] ++ interleave ms gs.tail) := by
  cases gs with
  | nil => cases ms <;> simp [interleave]
  | cons g gs => simp [interleave]

namespace Arrangement

/-- The text of a row. -/
def text (o : Arrangement) : Text := interleave (o.members.map Parts.text) o.gaps

/-- The entries of a row that begins at `pos`. -/
def entries (o : Arrangement) (pos : Nat) : List Entry := layOut pos o.members o.gaps

/-- Other members between the same gaps. -/
def withMembers (o : Arrangement) (ms : List Parts) (h : ms.length = o.members.length) :
    Arrangement := ⟨ms, o.gaps, by rw [h, o.fits]⟩

/-- The row with its keys sorted and its members in the order of their keys. -/
def sorted (r : Ranking) (o : Arrangement) : Arrangement :=
  o.withMembers (ClassList.sortBy (Parts.rank r) (o.members.map (Parts.sortKey r)))
    (by rw [ClassList.length_sortBy, List.length_map])

end Arrangement

/-! ## Entries that can be read -/

/-- Members and keys that can be read, each key in its member and one member behind the other. -/
structure InPlace (source : Text) (es : List Entry) : Prop where
  member : ∀ e ∈ es, ∃ text, Text.slice? source e.span = some text
  key : ∀ e ∈ es, ∃ text, Text.slice? source e.key.span = some text
  inside : ∀ e ∈ es, e.span.start ≤ e.key.span.start ∧ e.key.span.stop ≤ e.span.stop
  ordered : es.Pairwise fun a b => a.span.stop ≤ b.span.start

theorem InPlace.tail {source : Text} {e : Entry} {es : List Entry} (h : InPlace source (e :: es)) :
    InPlace source es :=
  ⟨fun e he => h.member e (List.mem_cons_of_mem _ he),
    fun e he => h.key e (List.mem_cons_of_mem _ he),
    fun e he => h.inside e (List.mem_cons_of_mem _ he), (List.pairwise_cons.mp h.ordered).2⟩

/-- An entry that can be read, taken apart. -/
theorem exists_parts {source : Text} {e : Entry} {es : List Entry} (h : InPlace source es)
    (he : e ∈ es) : ∃ (front : Text) (m : Parts) (back : Text),
      source = front ++ m.text ++ back ∧ e = m.entryAt (Text.size front) := by
  obtain ⟨text, htext⟩ := h.member e he
  obtain ⟨key, hkey⟩ := h.key e he
  obtain ⟨hstart, hstop⟩ := h.inside e he
  obtain ⟨⟨i, j⟩, ⟨⟨k, l⟩, c⟩⟩ := e
  dsimp only at htext hkey hstart hstop
  obtain ⟨front, back, hsource, rfl, rfl⟩ := Text.slice?_eq_some.mp htext
  obtain ⟨a, b, hsource', rfl, rfl⟩ := Text.slice?_eq_some.mp hkey
  -- the key begins behind the beginning of the member and ends in front of its end
  have hbegin : front ++ (text ++ back) = a ++ (key ++ b) := by
    rw [← List.append_assoc, ← List.append_assoc, ← hsource, ← hsource']
  obtain ⟨before, rfl, hbefore⟩ := Edit.append_after hbegin hstart
  rw [Text.size_append] at hstop
  have hend : (before ++ key) ++ b = text ++ back := by rw [hbefore, List.append_assoc]
  have hle : Text.size (before ++ key) ≤ Text.size text := by
    rw [Text.size_append]
    omega
  obtain ⟨after, rfl, rfl⟩ := Edit.append_after hend hle
  refine ⟨front, ⟨before, key, after, c⟩, back, hsource, ?_⟩
  unfold Parts.entryAt Parts.text
  rw [Text.size_append front]

/-- **Entries that can be read come from a row.** -/
theorem exists_arrangement {source : Text} {es : List Entry} (h : InPlace source es) :
    ∃ (front : Text) (o : Arrangement) (back : Text),
      source = front ++ o.text ++ back ∧ es = o.entries (Text.size front) := by
  induction es with
  | nil => exact ⟨[], ⟨[], [], rfl⟩, source, rfl, rfl⟩
  | cons e es ih =>
      obtain ⟨front, m, back, hsource, he⟩ := exists_parts h List.mem_cons_self
      obtain ⟨front', o, back', hsource', hes⟩ := ih h.tail
      obtain ⟨ms, gs, hfits⟩ := o
      cases ms with
      | nil =>
          obtain rfl : es = [] := hes
          refine ⟨front, ⟨[m], [], rfl⟩, back, ?_, by rw [he]; rfl⟩
          rw [hsource]
          simp [Arrangement.text, interleave]
      | cons m' ms =>
          -- the row of the others begins behind this member, and what is between is the gap
          have hfirst : m'.entryAt (Text.size front') ∈ es := by
            rw [hes]
            exact List.mem_cons_self
          have hstop : Text.size front + Text.size m.text ≤ Text.size front' := by
            have := (List.pairwise_cons.mp h.ordered).1 _ hfirst
            rw [he] at this
            exact this
          have hsplit : (front ++ m.text) ++ back =
              front' ++ (Arrangement.text ⟨m' :: ms, gs, hfits⟩ ++ back') := by
            rw [← hsource, ← List.append_assoc, ← hsource']
          obtain ⟨gap, hgap, -⟩ := Edit.append_after hsplit (by rw [Text.size_append]; exact hstop)
          refine ⟨front, ⟨m :: m' :: ms, gap :: gs, ?_⟩, back', ?_, ?_⟩
          · rw [List.length_cons, hfits]
            rfl
          · rw [hsource', hgap]
            simp [Arrangement.text, interleave]
          · rw [hes, he, hgap, Text.size_append, Text.size_append]
            rfl

/-! ## Reading a row -/

section

variable {source front back : Text} {r : Ranking}

theorem slice?_key (m : Parts) (h : source = front ++ (m.text ++ back)) :
    Text.slice? source (m.entryAt (Text.size front)).key.span = some m.key := by
  refine Text.slice?_eq_some.mpr ⟨front ++ m.before, m.after ++ back, ?_, ?_, rfl⟩
  · rw [h, Parts.text]
    simp only [List.append_assoc]
  · exact Text.size_append _ _

theorem member?_entryAt (m : Parts) (h : source = front ++ (m.text ++ back)) :
    member? source r (m.entryAt (Text.size front)) =
      some ((m.sortKey r).rank r, (m.sortKey r).text) := by
  have hbefore : Text.slice? source ⟨Text.size front, Text.size front + Text.size m.before⟩ =
      some m.before := by
    refine Text.slice?_eq_some.mpr ⟨front, m.key ++ m.after ++ back, ?_, rfl, rfl⟩
    rw [h, Parts.text]
    simp only [List.append_assoc]
  have hafter : Text.slice? source ⟨Text.size front + Text.size m.before + Text.size m.key,
      Text.size front + Text.size m.text⟩ = some m.after := by
    refine Text.slice?_eq_some.mpr ⟨front ++ m.before ++ m.key, back, ?_, ?_, ?_⟩
    · rw [h, Parts.text]
      simp only [List.append_assoc]
    · rw [Text.size_append, Text.size_append]
    · rw [Parts.text, Text.size_append, Text.size_append]
      omega
  unfold member? sortedKey?
  rw [slice?_key m h]
  dsimp only [Parts.entryAt] at hbefore hafter ⊢
  rw [hbefore, hafter]
  rfl

/-- A row is its first member, and behind the gap the row of the others. -/
theorem source_cons {m : Parts} {ms : List Parts} {gs : List Text}
    (h : source = front ++ (interleave ((m :: ms).map Parts.text) gs ++ back)) :
    source = front ++
        (m.text ++ (gs.headD [] ++ (interleave (ms.map Parts.text) gs.tail ++ back))) ∧
      source = front ++ m.text ++ gs.headD [] ++
        (interleave (ms.map Parts.text) gs.tail ++ back) := by
  rw [List.map_cons, interleave_cons] at h
  simp only [List.append_assoc] at h ⊢
  exact ⟨h, h⟩

theorem mapM_member? (ms : List Parts) (gs : List Text) :
    ∀ front : Text, source = front ++ (interleave (ms.map Parts.text) gs ++ back) →
      (layOut (Text.size front) ms gs).mapM (member? source r) =
        some (ms.map fun m => ((m.sortKey r).rank r, (m.sortKey r).text)) := by
  induction ms generalizing gs with
  | nil =>
      intro front h
      rfl
  | cons m ms ih =>
      intro front h
      obtain ⟨hfirst, hothers⟩ := source_cons h
      have hnext := ih gs.tail _ hothers
      rw [Text.size_append, Text.size_append] at hnext
      rw [layOut, List.mapM_cons, member?_entryAt m hfirst, hnext]
      rfl

theorem gaps?_cons_cons {a b : Entry} {es : List Entry} {g : Text} {gs : List Text}
    (hg : Text.slice? source ⟨a.span.stop, b.span.start⟩ = some g)
    (hgs : gaps? source (b :: es) = some gs) : gaps? source (a :: b :: es) = some (g :: gs) := by
  rw [gaps?, hg, hgs]
  rfl

theorem gaps?_layOut (ms : List Parts) (gs : List Text) (hfits : gs.length = ms.length - 1) :
    ∀ front : Text, source = front ++ (interleave (ms.map Parts.text) gs ++ back) →
      gaps? source (layOut (Text.size front) ms gs) = some gs := by
  induction ms generalizing gs with
  | nil =>
      intro front h
      obtain rfl : gs = [] := List.length_eq_zero_iff.mp hfits
      rfl
  | cons m ms ih =>
      intro front h
      cases ms with
      | nil =>
          obtain rfl : gs = [] := List.length_eq_zero_iff.mp hfits
          rfl
      | cons m' ms =>
          obtain ⟨g, gs, rfl⟩ := List.exists_cons_of_length_eq_add_one hfits
          rw [List.map_cons, interleave, List.append_assoc, List.append_assoc] at h
          have hnext := ih gs (Nat.succ.inj hfits) (front ++ m.text ++ g)
            (by rw [h]; simp only [List.append_assoc])
          have hgap : Text.slice? source ⟨Text.size front + Text.size m.text,
              Text.size front + Text.size m.text + Text.size g⟩ = some g := by
            refine Text.slice?_eq_some.mpr
              ⟨front ++ m.text, interleave ((m' :: ms).map Parts.text) gs ++ back, ?_, ?_, rfl⟩
            · rw [h]
              simp only [List.append_assoc]
            · exact Text.size_append _ _
          rw [Text.size_append, Text.size_append] at hnext
          exact gaps?_cons_cons hgap hnext

theorem region_layOut (pos : Nat) (m : Parts) (ms : List Parts) (gs : List Text)
    (hfits : gs.length = (m :: ms).length - 1) :
    region (layOut pos (m :: ms) gs) =
      ⟨pos, pos + Text.size (interleave ((m :: ms).map Parts.text) gs)⟩ := by
  induction ms generalizing pos m gs with
  | nil =>
      obtain rfl : gs = [] := List.length_eq_zero_iff.mp hfits
      show region [m.entryAt pos] = ⟨pos, pos + Text.size (m.text ++ [])⟩
      rw [List.append_nil]
      rfl
  | cons m' ms ih =>
      obtain ⟨g, gs, rfl⟩ := List.exists_cons_of_length_eq_add_one hfits
      have hrest := ih (pos + Text.size m.text + Text.size g) m' gs (Nat.succ.inj hfits)
      have hregion : region (layOut pos (m :: m' :: ms) (g :: gs)) = ⟨pos,
          (region (layOut (pos + Text.size m.text + Text.size g) (m' :: ms) gs)).stop⟩ :=
        region_cons_cons _ _ _
      have htext : interleave ((m :: m' :: ms).map Parts.text) (g :: gs) =
          m.text ++ g ++ interleave ((m' :: ms).map Parts.text) gs := rfl
      rw [hregion, hrest, htext, Text.size_append, Text.size_append]
      simp only [Nat.add_assoc]

end

/-! ## Sorting a row -/

namespace Arrangement

variable (r : Ranking) (o : Arrangement) (front back : Text)

/-- Sorting the members by their ranks alone gives the texts of the sorted row. -/
theorem map_text_sorted :
    (ClassList.sortBy Prod.fst
      (o.members.map fun m => ((m.sortKey r).rank r, (m.sortKey r).text))).map Prod.snd =
      (o.sorted r).members.map Parts.text := by
  show _ = (ClassList.sortBy (Parts.rank r) (o.members.map (Parts.sortKey r))).map Parts.text
  rw [ClassList.sortBy_map, ClassList.sortBy_map, List.map_map, List.map_map]
  rfl

theorem region_entries (pos : Nat) (hne : o.members ≠ []) :
    region (o.entries pos) = ⟨pos, pos + Text.size o.text⟩ := by
  obtain ⟨ms, gs, hfits⟩ := o
  obtain ⟨m, ms, rfl⟩ := List.exists_cons_of_ne_nil hne
  exact region_layOut pos m ms gs hfits

/-- What stands in the region of a row is the row. -/
theorem slice?_region : Text.slice? (front ++ o.text ++ back)
    (region (o.entries (Text.size front))) = some o.text := by
  by_cases hne : o.members = []
  · -- the region of no entries is the beginning of the source
    have hentries : o.entries (Text.size front) = [] := by rw [entries, hne, layOut]
    have htext : o.text = [] := by simp [text, hne, interleave]
    rw [hentries, htext]
    exact Text.slice?_eq_some.mpr ⟨[], _, rfl, rfl, rfl⟩
  · rw [o.region_entries _ hne]
    exact Text.slice?_append _ _ _

/-- **The edit of a row puts the sorted row in its place.** -/
theorem edit?_entries :
    edit? (front ++ o.text ++ back) r (o.entries (Text.size front)) =
      if (o.sorted r).text = o.text then none
      else some ⟨region (o.entries (Text.size front)), (o.sorted r).text⟩ := by
  have hsource : front ++ o.text ++ back =
      front ++ (interleave (o.members.map Parts.text) o.gaps ++ back) := List.append_assoc _ _ _
  have hmembers := mapM_member? (r := r) o.members o.gaps front hsource
  have hgaps := gaps?_layOut o.members o.gaps o.fits front hsource
  unfold edit?
  rw [slice?_region, Option.bind_eq_bind, Option.bind_some, entries, hmembers,
    Option.bind_eq_bind, Option.bind_some, hgaps, Option.bind_eq_bind, Option.bind_some]
  dsimp only
  rw [map_text_sorted]
  rfl

/-- Making the edit writes the sorted row. -/
theorem applyAll_edit? :
    Edit.applyAll (front ++ o.text ++ back)
      (edit? (front ++ o.text ++ back) r (o.entries (Text.size front))).toList =
      some (front ++ (o.sorted r).text ++ back) := by
  rw [edit?_entries]
  split
  · rename_i hsame
    rw [hsame]
    exact (Edit.Replaced.nil 0 _).applyAll
  · rename_i hchanged
    have hne : o.members ≠ [] := by
      intro hnil
      refine hchanged ?_
      simp [text, sorted, withMembers, hnil]
    rw [o.region_entries _ hne, List.append_assoc, List.append_assoc]
    exact (Edit.Replaced.cons (Nat.zero_add _) rfl (.nil _ _)).applyAll

/-- **Sorting a sorted row changes nothing.** -/
theorem sorted_sorted : (o.sorted r).sorted r = o.sorted r := by
  have hkeys : (o.sorted r).members.map (Parts.sortKey r) = (o.sorted r).members := by
    refine (List.map_congr_left ?_).trans (List.map_id _)
    intro m hm
    obtain ⟨m', -, rfl⟩ := List.mem_map.mp ((ClassList.sortBy_perm _ _).mem_iff.mp hm)
    exact Parts.sortKey_sortKey r m'
  refine Arrangement.ext ?_ rfl
  show ClassList.sortBy (Parts.rank r) ((o.sorted r).members.map (Parts.sortKey r)) = _
  rw [hkeys]
  exact ClassList.sortBy_sortBy _ _

end Arrangement

/-- How a row comes out of sorting. -/
structure SortsTo (r : Ranking) (o new : Arrangement) : Prop where
  /-- The members with their keys sorted, in the order of the first class of their keys. -/
  order : ClassList.StablySorted (fun m : Parts => keyRank r m.key)
    (o.members.map (Parts.sortKey r)) new.members
  /-- Members whose key begins with an unrecognized class stand before all others. -/
  unrecognized : new.members =
    ((o.members.map (Parts.sortKey r)).filter fun m => keyRank r m.key = none) ++
      new.members.filter fun m => keyRank r m.key ≠ none
  /-- The texts between the members stay in their places. -/
  gaps : new.gaps = o.gaps

/--
**Entries are sorted, and stay sorted.**

The entries are those of a row in the source. The edit puts another row in its place, with the same
texts between the members: each member is as it was except for the classes of its key, and the
members are sorted stably by the first class of their keys. There is no edit exactly if that
changes nothing. Where the new row has been written, its entries need no edit.
-/
theorem entries_stay_sorted {source : Text} {es : List Entry} (h : InPlace source es)
    (r : Ranking) :
    ∃ (front back : Text) (o new : Arrangement),
      source = front ++ o.text ++ back ∧ es = o.entries (Text.size front) ∧
      SortsTo r o new ∧
      edit? source r es = (if new.text = o.text then none else some ⟨region es, new.text⟩) ∧
      Edit.applyAll source (edit? source r es).toList = some (front ++ new.text ++ back) ∧
      edit? (front ++ new.text ++ back) r (new.entries (Text.size front)) = none := by
  obtain ⟨front, o, back, rfl, rfl⟩ := exists_arrangement h
  have horder := ClassList.stablySorted_sortBy (fun m : Parts => keyRank r m.key)
    (o.members.map (Parts.sortKey r))
  refine ⟨front, back, o, o.sorted r, rfl, rfl, ⟨horder, horder.unrecognized, rfl⟩,
    o.edit?_entries r front back, o.applyAll_edit? r front back, ?_⟩
  rw [Arrangement.edit?_entries, o.sorted_sorted, if_pos rfl]

def mixedText : Text := "\x7b 'c  b': x,\n  a: y, 'é': z \x7d".toList

/-- A key of two classes in the wrong order, a bare name, and a class that is not recognized. -/
def mixedEntries : List Entry :=
  [⟨⟨2, 11⟩, ⟨3, 7⟩, true⟩, ⟨⟨15, 19⟩, ⟨15, 16⟩, false⟩, ⟨⟨21, 28⟩, ⟨22, 24⟩, true⟩]

theorem inPlace_mixedEntries : InPlace mixedText mixedEntries := by
  have hmember : ∀ e ∈ mixedEntries, (Text.slice? mixedText e.span).isSome = true := by decide
  have hkey : ∀ e ∈ mixedEntries, (Text.slice? mixedText e.key.span).isSome = true := by decide
  exact ⟨fun e he => Option.isSome_iff_exists.mp (hmember e he),
    fun e he => Option.isSome_iff_exists.mp (hkey e he), by decide, by decide⟩

theorem entries_stay_sorted_mixed : InPlace mixedText mixedEntries ∧
    ∃ (front back : Text) (o new : Arrangement),
      mixedText = front ++ o.text ++ back ∧ mixedEntries = o.entries (Text.size front) ∧
      SortsTo (Ranking.ofNames ["a".toList, "b".toList, "c".toList]) o new ∧
      Edit.applyAll mixedText
        (edit? mixedText (Ranking.ofNames ["a".toList, "b".toList, "c".toList])
          mixedEntries).toList = some (front ++ new.text ++ back) ∧
      edit? (front ++ new.text ++ back)
        (Ranking.ofNames ["a".toList, "b".toList, "c".toList])
        (new.entries (Text.size front)) = none := by
  obtain ⟨front, back, o, new, hsource, hentries, hsorts, -, hout, hagain⟩ :=
    entries_stay_sorted inPlace_mixedEntries (.ofNames ["a".toList, "b".toList, "c".toList])
  exact ⟨inPlace_mixedEntries, front, back, o, new, hsource, hentries, hsorts, hout, hagain⟩

end ClassSort.Entry
