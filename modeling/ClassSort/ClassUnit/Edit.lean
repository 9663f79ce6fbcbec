import ClassSort.ClassUnit.Basic
import ClassSort.Edit.Basic

/-!
# Edits that sort class units

Every edit is computed from the source as it stands. A unit that is in order already
needs none.
-/

namespace ClassSort

/-- An edit that puts `text` in place of what a range holds, unless it is there. -/
def Edit.unlessSame (span : Span) (old text : Text) : Option Edit :=
  if text = old then none else some ⟨span, text⟩

/-- The edit that sorts a class list. -/
def ClassSpan.edit? (source : Text) (r : Ranking) (c : ClassSpan) : Option Edit := do
  let old ← Text.slice? source c.span
  Edit.unlessSame c.span old (ClassList.sort r c.ends old)

namespace Entry

/-- The text of a key, sorted if it is a class list. -/
def sortedKey? (source : Text) (r : Ranking) (k : EntryKey) : Option Text := do
  let key ← Text.slice? source k.span
  return if k.isClassList then ClassList.sort r {} key else key

/-- The rank of a key: that of its first class. -/
def keyRank (r : Ranking) (key : Text) : Rank :=
  (ClassList.tokens key).head?.bind fun t => r t.text

/-- The rank and the new text of an entry. -/
def member? (source : Text) (r : Ranking) (e : Entry) : Option (Rank × Text) := do
  let key ← sortedKey? source r e.key
  let before ← Text.slice? source ⟨e.span.start, e.key.span.start⟩
  let after ← Text.slice? source ⟨e.key.span.stop, e.span.stop⟩
  return (keyRank r key, before ++ key ++ after)

/-- The texts between one entry and the next. -/
def gaps? (source : Text) : List Entry → Option (List Text)
  | a :: b :: es => do
    let gap ← Text.slice? source ⟨a.span.stop, b.span.start⟩
    let rest ← gaps? source (b :: es)
    return gap :: rest
  | _ => some []

/-- Members with the gaps between them. -/
def interleave : List Text → List Text → Text
  | m :: ms, g :: gs => m ++ g ++ interleave ms gs
  | ms, _ => ms.flatten

/-- The edit that orders entries by the ranks of their keys. The texts between the
entries stay in their places. -/
def edit? (source : Text) (r : Ranking) (es : List Entry) : Option Edit := do
  let old ← Text.slice? source (region es)
  let members ← es.mapM (member? source r)
  let gaps ← gaps? source es
  let sorted := (ClassList.sortBy Prod.fst members).map Prod.snd
  Edit.unlessSame (region es) old (interleave sorted gaps)

end Entry

namespace ClassUnit

/-- The edit that sorts a unit. -/
def edit? (source : Text) (r : Ranking) : ClassUnit → Option Edit
  | .list c => c.edit? source r
  | .entries es => Entry.edit? source r es

/-- The edits that sort some units. -/
def edits (source : Text) (r : Ranking) (us : List ClassUnit) : List Edit :=
  us.filterMap (edit? source r)

end ClassUnit

end ClassSort
