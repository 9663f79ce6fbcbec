import ClassSort.Markup.Attribute
import ClassSort.Proofs.Slices

/-!
# Documents taken apart at their attribute values

The scanner of markup goes character by character and keeps offsets in its mode while it
is inside a value. To say what it finds in a document whose values have been rewritten,
the document is taken apart first: a `Layout` is the list of all attributes with a value,
each with the text in front of the value, and the text behind the last one.

The main statement is that every document has a layout that *stays* one when values are
replaced. A value in quotes may become anything without that quote, as long as no comment
begins or ends in it that did not before; a bare value has to stay as it is. The offsets of
the attributes are then read off the sizes of the parts, so nothing about the scanner is
needed any more to compare a document with its rewritten form.

Comments are the one thing that the scanner looks ahead for. At the beginning of a quoted
value, `<!--` is a comment only if it ends somewhere, and that can be far behind the value.
So the layout also has to keep a document without the end of a comment free of one.
-/

namespace ClassSort.Markup

/-! ## Layouts -/

/-- An attribute in its place. -/
structure Field where
  /-- The text between the value before and this one. -/
  before : Text
  name : Text
  value : Text
  /-- The quote around the value. -/
  quote : Option Char

/-- A document as its attribute values and the text around them. -/
structure Layout where
  fields : List Field
  tail : Text

/-- Whether a quoted value begins with what may be a comment. -/
def beginsComment (v : Text) : Bool :=
  "<!--".toList.isPrefixOf (v.dropWhile Text.isAsciiBlank)

/-- What can stand in place of a value between the quotes `q`: it does not end early, begins
with no comment, and ends none unless the value did. -/
structure Replaces (q : Char) (value v : Text) : Prop where
  unquoted : q ∉ v
  uncommented : beginsComment v = false
  closes : closesComment 0 v = true → closesComment 0 value = true

/-- Whether `v` can stand in place of the value. -/
def Field.Admits (f : Field) (v : Text) : Prop :=
  v = f.value ∨ ∃ q, f.quote = some q ∧ Replaces q f.value v

/-- The field with its value rewritten; `g` takes the name and the value. -/
def Field.rewrite (g : Text → Text → Text) (f : Field) : Field :=
  { f with value := g f.name f.value }

/-- The text of some fields with `tail` behind them. -/
def fieldsText (tail : Text) : List Field → Text
  | [] => tail
  | f :: fs => f.before ++ f.value ++ fieldsText tail fs

/-- The attributes of some fields, the first of which begins at `pos`. -/
def fieldsAttributes (pos : Nat) : List Field → List Attribute
  | [] => []
  | f :: fs =>
    ⟨f.name, ⟨pos + f.before.size, pos + f.before.size + f.value.size⟩⟩ ::
      fieldsAttributes (pos + f.before.size + f.value.size) fs

namespace Layout

/-- The document. -/
def text (L : Layout) : Text := fieldsText L.tail L.fields

/-- The attributes of the document, if it stands at `pos`. -/
def attributes (pos : Nat) (L : Layout) : List Attribute := fieldsAttributes pos L.fields

/-- The document with its values rewritten. -/
def rewrite (g : Text → Text → Text) (L : Layout) : Layout := ⟨L.fields.map (·.rewrite g), L.tail⟩

/-- The document with some text in front of it. -/
def prepend (t : Text) : Layout → Layout
  | ⟨[], tail⟩ => ⟨[], t ++ tail⟩
  | ⟨f :: fs, tail⟩ => ⟨{ f with before := t ++ f.before } :: fs, tail⟩

/-- The document with an attribute in front of it. -/
def cons (f : Field) (L : Layout) : Layout := ⟨f :: L.fields, L.tail⟩

theorem text_prepend (t : Text) (L : Layout) : (L.prepend t).text = t ++ L.text := by
  rcases L with ⟨_ | ⟨f, fs⟩, tail⟩
  · rfl
  · simp [prepend, text, fieldsText]

theorem attributes_prepend (t : Text) (pos : Nat) (L : Layout) :
    (L.prepend t).attributes pos = L.attributes (pos + t.size) := by
  rcases L with ⟨_ | ⟨f, fs⟩, tail⟩
  · rfl
  · simp [prepend, attributes, fieldsAttributes, Nat.add_assoc]

theorem rewrite_prepend (g : Text → Text → Text) (t : Text) (L : Layout) :
    (L.prepend t).rewrite g = (L.rewrite g).prepend t := by
  rcases L with ⟨_ | ⟨f, fs⟩, tail⟩ <;> rfl

theorem text_cons (f : Field) (L : Layout) : (L.cons f).text = f.before ++ f.value ++ L.text := rfl

theorem attributes_cons (f : Field) (pos : Nat) (L : Layout) :
    (L.cons f).attributes pos =
      ⟨f.name, ⟨pos + f.before.size, pos + f.before.size + f.value.size⟩⟩ ::
        L.attributes (pos + f.before.size + f.value.size) := rfl

theorem rewrite_cons (g : Text → Text → Text) (f : Field) (L : Layout) :
    (L.cons f).rewrite g = (L.rewrite g).cons (f.rewrite g) := rfl

theorem rewrite_id (L : Layout) : L.rewrite (fun _ v => v) = L := by
  show (⟨L.fields.map id, L.tail⟩ : Layout) = L
  rw [List.map_id]

/-- Rewriting once is enough when it is enough for every value. -/
theorem rewrite_rewrite {g : Text → Text → Text} (h : ∀ name v, g name (g name v) = g name v)
    (L : Layout) : (L.rewrite g).rewrite g = L.rewrite g := by
  unfold rewrite
  rw [List.map_map]
  congr 1
  refine List.map_congr_left fun f _ => ?_
  simp only [Function.comp_apply, Field.rewrite, h]

/-- Every value of the layout may be rewritten by `g`. -/
def Admits (g : Text → Text → Text) (L : Layout) : Prop :=
  ∀ f ∈ L.fields, f.Admits (g f.name f.value)

theorem admits_prepend {g : Text → Text → Text} {t : Text} {L : Layout} :
    (L.prepend t).Admits g ↔ L.Admits g := by
  rcases L with ⟨_ | ⟨f, fs⟩, tail⟩
  · exact Iff.rfl
  · constructor
    · intro h f' hf'
      rcases List.mem_cons.mp hf' with rfl | hf'
      · exact h { f' with before := t ++ f'.before } (by simp [prepend])
      · exact h f' (by simp [prepend, hf'])
    · intro h f' hf'
      rcases List.mem_cons.mp hf' with rfl | hf'
      · exact h f (by simp)
      · exact h f' (by simp [hf'])

end Layout

/-! ## Modes outside of values -/

/-- A comment that does not stand in a value. -/
def CommentPlace.Outside : CommentPlace → Prop
  | .front _ _ _ _ => False
  | _ => True

/-- A mode outside of values that expects none either. -/
def Mode.Plain : Mode → Prop
  | .assigned _ _ | .front _ _ _ _ | .quoted _ _ _ _ | .bare _ _ _ => False
  | .opened within | .declared _ within | .comment _ within => within.Outside
  | _ => True

/-- A mode outside of values. -/
def Mode.Outside (m : Mode) : Prop := m.Plain ∨ ∃ tag name, m = .assigned tag name

theorem plain_stepText (c : Char) : (stepText c).Plain := by
  unfold stepText
  split <;> trivial

theorem plain_afterTag (name : Text) : (Mode.afterTag name).Plain := by
  unfold Mode.afterTag
  dsimp only
  split
  · trivial
  · split <;> trivial

theorem plain_stepTag (name : Text) (c : Char) : (stepTag name c).Plain := by
  unfold stepTag
  split
  · exact plain_afterTag name
  · split
    · trivial
    · split <;> trivial

theorem plain_stepSkipped (c : Char) : (stepSkipped c).Plain := by
  unfold stepSkipped
  split <;> trivial

theorem plain_stepOpened {within : CommentPlace} (h : within.Outside) (c : Char) :
    (stepOpened within c).Plain := by
  unfold stepOpened
  split
  · exact h
  · split
    · trivial
    · split
      · trivial
      · split
        · exact h
        · exact plain_stepText c

/-- What can stand in front of a value: an equals sign, a blank, or the end of a comment. -/
def IsLeading (c : Char) : Prop := c = '=' ∨ c = '>' ∨ Text.isAsciiBlank c = true

/-- A mode outside of values that is reached by the character `c`. -/
def Mode.Behind (m : Mode) (c : Char) : Prop :=
  m.Plain ∨ IsLeading c ∧ ∃ tag name, m = .assigned tag name

theorem Mode.Behind.outside {m : Mode} {c : Char} (h : m.Behind c) : m.Outside := h.imp_right And.right

theorem behind_stepNamed (tag name : Text) (c : Char) : (stepNamed tag name c).Behind c := by
  unfold stepNamed
  split
  · exact .inl trivial
  · split
    · rename_i hc
      exact .inr ⟨.inl (by simpa using hc), tag, name, rfl⟩
    · split
      · exact .inl trivial
      · exact .inl (plain_stepTag tag c)

/-- Behind a comment the scanner is where it was, which can be in front of a value. -/
theorem behind_comment {within : CommentPlace} (h : within.Outside) (dashes : Nat) (c : Char) :
    (step (.comment dashes within) 0 c []).Behind c := by
  unfold step
  dsimp only
  split
  · exact .inl h
  · split
    · rename_i hc
      have hend : c = '>' := by simpa using (Bool.and_eq_true_iff.mp hc).1
      cases within with
      | front tag name quote start => exact h.elim
      | assigned tag name => exact .inr ⟨.inr (.inl hend), tag, name, rfl⟩
      | _ => exact .inl trivial
    · exact .inl h

/-- From a plain mode the scanner goes to a mode outside of values, whatever is around. -/
theorem behind_step {m : Mode} (hm : m.Plain) (c : Char) : (step m 0 c []).Behind c := by
  cases m with
  | text => exact .inl (plain_stepText c)
  | opened within => exact .inl (plain_stepOpened hm c)
  | declared dash within =>
      left
      unfold step
      dsimp only
      split
      · split <;> exact hm
      · exact plain_stepSkipped c
  | skipped => exact .inl (plain_stepSkipped c)
  | comment dashes within => exact behind_comment hm dashes c
  | tagName name =>
      left
      unfold step
      dsimp only
      split
      · trivial
      · exact plain_stepTag name c
  | tag name => exact .inl (plain_stepTag name c)
  | attributeName tag name =>
      unfold step
      dsimp only
      split
      · exact .inl trivial
      · exact behind_stepNamed tag name c
  | named tag name => exact behind_stepNamed tag name c
  | assigned tag name => exact hm.elim
  | front tag name quote start => exact hm.elim
  | quoted tag name quote start => exact hm.elim
  | bare tag name start => exact hm.elim
  | raw closing left =>
      left
      cases left with
      | nil => exact plain_stepSkipped c
      | cons l left =>
          unfold step
          dsimp only
          split
          · split <;> trivial
          · trivial

/-- A character that leads to the mode `m'`, whatever else the document holds, and ends no value. -/
structure Leads (m : Mode) (c : Char) (m' : Mode) : Prop where
  step : ∀ pos rest, step m pos c rest = m'
  none : ∀ pos, completed? m pos c = none
  behind : m'.Behind c

theorem leads_plain {m : Mode} (hm : m.Plain) (c : Char) : Leads m c (step m 0 c []) := by
  cases m with
  | assigned tag name => exact hm.elim
  | front tag name quote start => exact hm.elim
  | quoted tag name quote start => exact hm.elim
  | bare tag name start => exact hm.elim
  | _ => exact ⟨fun _ _ => rfl, fun _ => rfl, behind_step hm c⟩

/-- Behind an equals sign a value begins, unless blanks, a comment or another character come. -/
theorem step_assigned (tag name : Text) (c : Char) :
    (∃ m', Leads (.assigned tag name) c m') ∨
    (c = '"' ∨ c = '\'') ∧
        (∀ pos rest, step (.assigned tag name) pos c rest = .front tag name c (pos + 1)) ∨
    isBareChar c = true ∧
        ∀ pos rest, step (.assigned tag name) pos c rest = .bare tag name pos := by
  have hstep (pos : Nat) (rest : Text) :
      step (.assigned tag name) pos c rest = stepAssigned tag name pos c := rfl
  by_cases hblank : (Text.isAsciiBlank c || c == '=') = true
  · refine .inl ⟨.assigned tag name, fun pos rest => ?_, fun _ => rfl, .inr ⟨?_, tag, name, rfl⟩⟩
    · rw [hstep, stepAssigned, if_pos hblank]
    · simp only [Bool.or_eq_true, beq_iff_eq] at hblank
      exact hblank.elim (fun h => .inr (.inr h)) .inl
  · by_cases hquote : (c == '"' || c == '\'') = true
    · refine .inr (.inl ⟨by simpa using hquote, fun pos rest => ?_⟩)
      rw [hstep, stepAssigned, if_neg hblank, if_pos hquote]
    · by_cases hbare : isBareChar c = true
      · refine .inr (.inr ⟨hbare, fun pos rest => ?_⟩)
        rw [hstep, stepAssigned, if_neg hblank, if_neg hquote, if_pos hbare]
      · by_cases hopen : (c == '<') = true
        · refine .inl ⟨.opened (.assigned tag name), fun pos rest => ?_, fun _ => rfl, .inl trivial⟩
          rw [hstep, stepAssigned, if_neg hblank, if_neg hquote, if_neg hbare, if_pos hopen]
        · refine .inl ⟨stepTag tag c, fun pos rest => ?_, fun _ => rfl, .inl (plain_stepTag tag c)⟩
          rw [hstep, stepAssigned, if_neg hblank, if_neg hquote, if_neg hbare, if_neg hopen]

/-! ## Comments -/

theorem closesComment_append {d : Nat} {x : Text} (h : closesComment d x = true) (y : Text) :
    closesComment d (x ++ y) = true := by
  induction x generalizing d with
  | nil => exact absurd h (by simp [closesComment])
  | cons c x ih =>
      rw [List.cons_append]
      unfold closesComment at h ⊢
      split
      · rename_i hc
        rw [if_pos hc] at h
        exact ih h
      · rename_i hc
        rw [if_neg hc] at h
        split
        · rfl
        · rename_i hend
          rw [if_neg hend] at h
          exact ih h

/-- What closes a comment in a text closes it behind another one. -/
theorem closesComment_append_left {t t' : Text}
    (h : ∀ d, closesComment d t' = true → closesComment d t = true) (x : Text) (d : Nat) :
    closesComment d (x ++ t') = true → closesComment d (x ++ t) = true := by
  induction x generalizing d with
  | nil => exact h d
  | cons c x ih =>
      intro hc
      rw [List.cons_append] at hc ⊢
      unfold closesComment at hc ⊢
      split
      · rename_i hdash
        rw [if_pos hdash] at hc
        exact ih _ hc
      · rename_i hdash
        rw [if_neg hdash] at hc
        split
        · rfl
        · rename_i hend
          rw [if_neg hend] at hc
          exact ih _ hc

/-- No end of a comment goes across a character that is not part of one. -/
theorem closesComment_across {b : Char} (hdash : b ≠ '-') (hend : b ≠ '>') (x t : Text) (d : Nat) :
    closesComment d (x ++ b :: t) = (closesComment d x || closesComment 0 t) := by
  induction x generalizing d with
  | nil => simp [closesComment, hdash, hend]
  | cons c x ih =>
      rw [List.cons_append, closesComment, closesComment, ih, ih]
      split
      · rfl
      · split <;> rfl

theorem closesComment_quote {q : Char} (hq : q = '"' ∨ q = '\'') (x t : Text) (d : Nat) :
    closesComment d (x ++ q :: t) = (closesComment d x || closesComment 0 t) := by
  rcases hq with rfl | rfl
  · exact closesComment_across (by decide) (by decide) x t d
  · exact closesComment_across (by decide) (by decide) x t d

/-- A comment that ends in a text is passed over, whatever is behind it. -/
theorem exists_end_of_comment {cs : Text} : ∀ {d : Nat}, closesComment d cs = true →
    ∃ u rest : Text, cs = u ++ rest ∧ closesComment d u = true ∧ ∀ within pos rest',
      scan (.comment d within) pos (u ++ rest') = scan (afterComment within) (pos + u.size) rest' := by
  induction cs with
  | nil =>
      intro d h
      exact absurd h (by simp [closesComment])
  | cons c cs ih =>
      intro d h
      -- one more character of the comment
      have hnext {d' : Nat} (hstep : ∀ within pos rest, step (.comment d within) pos c rest =
          .comment d' within) (hcloses : ∀ x, closesComment d (c :: x) = closesComment d' x)
          (hd : closesComment d' cs = true) :
          ∃ u rest : Text, c :: cs = u ++ rest ∧ closesComment d u = true ∧ ∀ within pos rest',
            scan (.comment d within) pos (u ++ rest') =
              scan (afterComment within) (pos + u.size) rest' := by
        obtain ⟨u, rest, rfl, hu, hscan⟩ := ih hd
        refine ⟨c :: u, rest, rfl, by rw [hcloses]; exact hu, fun within pos rest' => ?_⟩
        rw [List.cons_append, scan, hstep, hscan, Text.size_cons, Nat.add_assoc]
        rfl
      unfold closesComment at h
      split at h
      · rename_i hc
        refine hnext (fun within pos rest => ?_) (fun x => ?_) h
        · rw [step, if_pos hc]
        · rw [closesComment, if_pos hc]
      · rename_i hc
        split at h
        · rename_i hend
          refine ⟨[c], cs, rfl, ?_, fun within pos rest' => ?_⟩
          · rw [closesComment, if_neg hc, if_pos hend]
          · rw [List.singleton_append, scan, step, if_neg hc, if_pos hend, Text.size_cons]
            rfl
        · rename_i hend
          refine hnext (fun within pos rest => ?_) (fun x => ?_) h
          · rw [step, if_neg hc, if_neg hend]
          · rw [closesComment, if_neg hc, if_neg hend]

theorem opensComment_iff {cs : Text} :
    opensComment cs = true ↔ ∃ t, cs = '!' :: '-' :: '-' :: t ∧ closesComment 0 t = true := by
  constructor
  · intro h
    unfold opensComment at h
    split at h
    · exact ⟨_, rfl, h⟩
    · exact absurd h (by simp)
  · rintro ⟨t, rfl, h⟩
    exact h

/-- The beginning of a comment does not go across a quote either. -/
theorem opensComment_quote {q : Char} (hq : q = '"' ∨ q = '\'') {x t : Text} :
    opensComment (x ++ q :: t) = true ↔
      ∃ y, x = '!' :: '-' :: '-' :: y ∧ (closesComment 0 y || closesComment 0 t) = true := by
  rw [opensComment_iff]
  constructor
  · rintro ⟨u, hu, hcloses⟩
    rcases x with _ | ⟨a, _ | ⟨b, _ | ⟨c, y⟩⟩⟩
    · injection hu with hu
      subst hu
      exact absurd hq (by decide)
    · injection hu with _ hu
      injection hu with hu
      subst hu
      exact absurd hq (by decide)
    · injection hu with _ hu
      injection hu with _ hu
      injection hu with hu
      subst hu
      exact absurd hq (by decide)
    · simp only [List.cons_append, List.cons.injEq] at hu
      obtain ⟨rfl, rfl, rfl, rfl⟩ := hu
      exact ⟨y, rfl, by rwa [closesComment_quote hq] at hcloses⟩
  · rintro ⟨y, rfl, hcloses⟩
    exact ⟨y ++ q :: t, rfl, by rwa [closesComment_quote hq]⟩

theorem beginsComment_blank {c : Char} (hc : Text.isAsciiBlank c = true) (v : Text) :
    beginsComment (c :: v) = beginsComment v := by
  unfold beginsComment
  rw [List.dropWhile_cons_of_pos hc]

theorem beginsComment_open (v : Text) : beginsComment ('<' :: '!' :: '-' :: '-' :: v) = true := by
  have hopen : Text.isAsciiBlank '<' = false := by decide
  unfold beginsComment
  rw [List.dropWhile_cons_of_neg (by simp [hopen])]
  simp

/-! ## Inside values -/

theorem scan_quoted {tag name v rest : Text} {q : Char} (hq : q ∉ v) (start pos : Nat) :
    scan (.quoted tag name q start) pos (v ++ q :: rest) =
      ⟨name.reverse, ⟨start, pos + v.size⟩⟩ :: scan (.tag tag) (pos + v.size + q.utf8Size) rest := by
  induction v generalizing pos with
  | nil => simp [scan, step, completed?]
  | cons c v ih =>
      have hc : (c == q) = false := by
        rw [beq_eq_false_iff_ne]
        rintro rfl
        exact hq (by simp)
      have hrest := ih (fun h => hq (List.mem_cons_of_mem c h)) (pos + c.utf8Size)
      rw [List.cons_append, scan]
      simp only [completed?, step, hc, Bool.false_eq_true, if_false, Option.toList_none,
        List.nil_append, hrest, Text.size_cons, Nat.add_assoc]

/-- A value whose quote never comes again is none. -/
theorem scan_unclosed {tag name v : Text} {q : Char} (hq : q ∉ v) (start pos : Nat) :
    scan (.quoted tag name q start) pos v = [] := by
  induction v generalizing pos with
  | nil => rfl
  | cons c v ih =>
      have hc : (c == q) = false := by
        rw [beq_eq_false_iff_ne]
        rintro rfl
        exact hq (by simp)
      rw [scan]
      simp only [completed?, step, hc, Bool.false_eq_true, if_false, Option.toList_none,
        List.nil_append]
      exact ih (fun h => hq (List.mem_cons_of_mem c h)) _

theorem scan_bare {tag name v rest : Text} {c : Char} (hv : ∀ d ∈ v, isBareChar d = true)
    (hc : isBareChar c = false) (start pos : Nat) :
    scan (.bare tag name start) pos (v ++ c :: rest) =
      ⟨name.reverse, ⟨start, pos + v.size⟩⟩ ::
        scan (stepTag tag c) (pos + v.size + c.utf8Size) rest := by
  induction v generalizing pos with
  | nil => simp [scan, step, completed?, hc]
  | cons d v ih =>
      have hd : isBareChar d = true := hv d (by simp)
      have hrest := ih (fun e he => hv e (List.mem_cons_of_mem d he)) (pos + d.utf8Size)
      rw [List.cons_append, scan]
      simp only [completed?, step, hd, if_true, Option.toList_none, List.nil_append, hrest,
        Text.size_cons, Nat.add_assoc]

theorem scan_bare_end {tag name v : Text} (hv : ∀ d ∈ v, isBareChar d = true) (start pos : Nat) :
    scan (.bare tag name start) pos v = [⟨name.reverse, ⟨start, pos + v.size⟩⟩] := by
  induction v generalizing pos with
  | nil => rfl
  | cons d v ih =>
      have hd : isBareChar d = true := hv d (by simp)
      have hrest := ih (fun e he => hv e (List.mem_cons_of_mem d he)) (pos + d.utf8Size)
      rw [scan]
      simp only [completed?, step, hd, if_true, Option.toList_none, List.nil_append, hrest,
        Text.size_cons, Nat.add_assoc]

/-! ## The front of a quoted value -/

/-- What is passed over at the beginning of a value: blanks and comments. -/
structure Lead (q : Char) (lead : Text) : Prop where
  scan : ∀ tag name start pos rest, scan (.front tag name q start) pos (lead ++ rest) =
    scan (.front tag name q start) (pos + lead.size) rest
  /-- A quote stands only in a comment. -/
  quote : q ∈ lead → ∀ body, beginsComment (lead ++ body) = true

section

variable {q : Char} {lead : Text}

theorem lead_nil (q : Char) : Lead q [] := ⟨fun _ _ _ _ _ => rfl, fun h => absurd h List.not_mem_nil⟩

theorem Lead.blank (hq : q = '"' ∨ q = '\'') {c : Char} (hc : Text.isAsciiBlank c = true)
    (h : Lead q lead) : Lead q (c :: lead) := by
  have hne : (c == q) = false := by
    rw [beq_eq_false_iff_ne]
    rintro rfl
    rcases hq with rfl | rfl <;> exact absurd hc (by decide)
  refine ⟨fun tag name start pos rest => ?_, fun hmem body => ?_⟩
  · rw [List.cons_append, Markup.scan]
    simp only [completed?, step, stepFront, hne, Bool.false_eq_true, if_false, hc, if_true,
      Option.toList_none, List.nil_append]
    rw [h.scan, Text.size_cons, Nat.add_assoc]
  · rw [List.cons_append, beginsComment_blank hc]
    refine h.quote ((List.mem_cons.mp hmem).resolve_left ?_) body
    rintro rfl
    exact absurd hne (by simp)

/-- A comment in front of the rest. -/
theorem exists_lead_of_comment (hq : q = '"' ∨ q = '\'') {cs : Text}
    (h : opensComment cs = true) :
    ∃ u rest, cs = u ++ rest ∧ ∀ {lead}, Lead q lead → Lead q ('<' :: u ++ lead) := by
  obtain ⟨t, rfl, hcloses⟩ := opensComment_iff.mp h
  obtain ⟨u, rest, rfl, hu, hscan⟩ := exists_end_of_comment hcloses
  have hne : ('<' == q) = false := by rcases hq with rfl | rfl <;> decide
  have hblank : Text.isAsciiBlank '<' = false := by decide
  refine ⟨'!' :: '-' :: '-' :: u, rest, rfl, fun {lead} hlead => ⟨?_, fun _ body => ?_⟩⟩
  · intro tag name start pos rest'
    have hopens : opensComment ('!' :: '-' :: '-' :: (u ++ (lead ++ rest'))) = true :=
      closesComment_append hu _
    have hfirst : step (.front tag name q start) pos '<'
        ('!' :: '-' :: '-' :: (u ++ (lead ++ rest'))) = .opened (.front tag name q start) := by
      simp [step, stepFront, hne, hblank, hopens]
    have hall : '<' :: ('!' :: '-' :: '-' :: u) ++ lead ++ rest' =
        '<' :: '!' :: '-' :: '-' :: (u ++ (lead ++ rest')) := by simp
    -- the four characters of the opening, and then the comment
    rw [hall, Markup.scan, hfirst, Markup.scan, Markup.scan, Markup.scan]
    simp only [completed?, hne, Bool.false_eq_true, if_false, Option.toList_none, List.nil_append]
    have hopening (p₁ p₂ p₃ : Nat) (r₁ r₂ r₃ : Text) :
        step (step (step (.opened (.front tag name q start)) p₁ '!' r₁) p₂ '-' r₂) p₃ '-' r₃ =
          .comment 0 (.front tag name q start) := rfl
    show Markup.scan (step (step (step _ _ '!' _) _ '-' _) _ '-' _) _ _ = _
    rw [hopening, hscan, afterComment, hlead.scan]
    congr 1
    simp only [Text.size_append, Text.size_cons]
    omega
  · simp only [List.cons_append]
    exact beginsComment_open _

/-- The part of a value behind its comments, with the quote and `rest` behind it: no comment begins
with it. -/
def IsBody (q : Char) (body rest : Text) : Prop :=
  q ∉ body ∧ ∀ c b, body = c :: b →
    Text.isAsciiBlank c = false ∧ ¬ (c = '<' ∧ opensComment (b ++ q :: rest) = true)

/-- It stays one if no comment is closed behind it that was not before. -/
theorem IsBody.of_closes (hq : q = '"' ∨ q = '\'') {body rest rest' : Text}
    (h : IsBody q body rest)
    (hcloses : closesComment 0 rest' = true → closesComment 0 rest = true) :
    IsBody q body rest' := by
  refine ⟨h.1, fun c b hb => ?_⟩
  obtain ⟨hblank, hopen⟩ := h.2 c b hb
  refine ⟨hblank, fun hc => hopen ⟨hc.1, ?_⟩⟩
  obtain ⟨y, hy, hclosed⟩ := (opensComment_quote hq).mp hc.2
  refine (opensComment_quote hq).mpr ⟨y, hy, ?_⟩
  rw [Bool.or_eq_true] at hclosed ⊢
  exact hclosed.imp_right hcloses

theorem scan_body {tag name body rest : Text} (h : IsBody q body rest) (start pos : Nat) :
    scan (.front tag name q start) pos (body ++ q :: rest) =
      ⟨name.reverse, ⟨start, pos + body.size⟩⟩ ::
        scan (.tag tag) (pos + body.size + q.utf8Size) rest := by
  obtain ⟨hquote, hfirst⟩ := h
  cases body with
  | nil => simp [scan, step, stepFront, completed?]
  | cons c body =>
      obtain ⟨hblank, hopen⟩ := hfirst c body rfl
      have hne : (c == q) = false := by
        rw [beq_eq_false_iff_ne]
        rintro rfl
        exact hquote (by simp)
      have hopen' : (c == '<' && opensComment (body ++ q :: rest)) = false := by
        rw [Bool.eq_false_iff]
        intro hc
        obtain ⟨hc, hopens⟩ := Bool.and_eq_true_iff.mp hc
        exact hopen ⟨by simpa using hc, hopens⟩
      rw [List.cons_append, scan]
      simp only [completed?, step, stepFront, hne, Bool.false_eq_true, if_false, hblank, hopen',
        Option.toList_none, List.nil_append]
      rw [scan_quoted (fun hmem => hquote (List.mem_cons_of_mem c hmem)), Text.size_cons,
        Nat.add_assoc]

/-- A value that begins with no comment is body but for its blanks. -/
theorem exists_lead_of_uncommented (hq : q = '"' ∨ q = '\'') {v : Text} (hv : q ∉ v)
    (h : beginsComment v = false) (rest : Text) :
    ∃ lead body, v = lead ++ body ∧ Lead q lead ∧ IsBody q body rest := by
  induction v with
  | nil => exact ⟨[], [], rfl, lead_nil q, List.not_mem_nil, by simp⟩
  | cons c v ih =>
      by_cases hblank : Text.isAsciiBlank c = true
      · rw [beginsComment_blank hblank] at h
        obtain ⟨lead, body, rfl, hlead, hbody⟩ := ih (fun hmem => hv (List.mem_cons_of_mem c hmem)) h
        exact ⟨c :: lead, body, rfl, hlead.blank hq hblank, hbody⟩
      · refine ⟨[], c :: v, rfl, lead_nil q, hv, ?_⟩
        rintro c' b ⟨⟩
        refine ⟨Bool.eq_false_iff.mpr hblank, ?_⟩
        rintro ⟨rfl, hopens⟩
        obtain ⟨y, rfl, -⟩ := (opensComment_quote hq).mp hopens
        rw [beginsComment_open] at h
        exact absurd h (by simp)

/-- **Behind an opening quote stands a value**, or there is no closing one. -/
theorem exists_value (hq : q = '"' ∨ q = '\'') (n : Nat) : ∀ cs : Text, cs.length ≤ n →
    (∃ lead body rest, cs = lead ++ (body ++ q :: rest) ∧ Lead q lead ∧ IsBody q body rest) ∨
      ∀ tag name start pos, scan (.front tag name q start) pos cs = [] := by
  induction n with
  | zero =>
      intro cs hlen
      obtain rfl := List.length_eq_zero_iff.mp (Nat.le_zero.mp hlen)
      exact .inr fun _ _ _ _ => rfl
  | succ n ih =>
      intro cs hlen
      -- blanks and comments are passed over
      have hpassed : ∀ u t, cs = u ++ t → t.length ≤ n →
          (∀ {lead}, Lead q lead → Lead q (u ++ lead)) →
          (∃ lead body rest, cs = lead ++ (body ++ q :: rest) ∧ Lead q lead ∧
            IsBody q body rest) ∨
            ∀ tag name start pos, scan (.front tag name q start) pos cs = [] := by
        rintro u t rfl ht hu
        rcases ih t ht with ⟨lead, body, rest, rfl, hlead, hbody⟩ | hnone
        · exact .inl ⟨u ++ lead, body, rest, by rw [List.append_assoc], hu hlead, hbody⟩
        · refine .inr fun tag name start pos => ?_
          have hskip := (hu (lead_nil q)).scan tag name start pos t
          rw [List.append_nil] at hskip
          rw [hskip]
          exact hnone tag name start _
      cases cs with
      | nil => exact .inr fun _ _ _ _ => rfl
      | cons c cs =>
          have hrest : cs.length ≤ n := Nat.le_of_succ_le_succ hlen
          by_cases hblank : Text.isAsciiBlank c = true
          · exact hpassed [c] cs rfl hrest fun hlead => hlead.blank hq hblank
          · by_cases hopen : c = '<' ∧ opensComment cs = true
            · obtain ⟨rfl, hopens⟩ := hopen
              obtain ⟨u, rest, rfl, hu⟩ := exists_lead_of_comment hq hopens
              refine hpassed ('<' :: u) rest rfl ?_ hu
              rw [List.length_append] at hrest
              omega
            · by_cases hmem : q ∈ c :: cs
              · obtain ⟨body, rest, hsplit, hbody⟩ := List.eq_append_cons_of_mem hmem
                refine .inl ⟨[], body, rest, hsplit, lead_nil q, hbody, ?_⟩
                rintro d b rfl
                injection hsplit with hd hb
                subst hd hb
                exact ⟨Bool.eq_false_iff.mpr hblank, hopen⟩
              · refine .inr fun tag name start pos => ?_
                have hne : (c == q) = false := by
                  rw [beq_eq_false_iff_ne]
                  rintro rfl
                  exact hmem (by simp)
                have hopen' : (c == '<' && opensComment cs) = false := by
                  rw [Bool.eq_false_iff]
                  intro hc
                  obtain ⟨hc, hopens⟩ := Bool.and_eq_true_iff.mp hc
                  exact hopen ⟨by simpa using hc, hopens⟩
                rw [scan]
                simp only [completed?, step, stepFront, hne, Bool.false_eq_true, if_false,
                  Bool.eq_false_iff.mpr hblank, hopen', Option.toList_none, List.nil_append]
                exact scan_unclosed (fun h => hmem (List.mem_cons_of_mem c h)) _ _

end

/-! ## Every document has a layout -/

/-- The character in front of a value tells whether the value is quoted. Its own quote stands in it
only behind the beginning of a comment. -/
def Field.Placed (f : Field) : Prop :=
  match f.quote with
  | some q => f.before.getLast? = some q ∧ (q = '"' ∨ q = '\'') ∧
      (q ∈ f.value → beginsComment f.value = true)
  | none => ∃ c, f.before.getLast? = some c ∧ IsLeading c

theorem Field.Placed.prepend {f : Field} (h : f.Placed) (t : Text) :
    Field.Placed { f with before := t ++ f.before } := by
  rcases f with ⟨before, name, value, _ | q⟩
  · obtain ⟨c, hlast, hc⟩ := h
    dsimp only at hlast
    exact ⟨c, by simp [List.getLast?_append, hlast], hc⟩
  · obtain ⟨hlast, hq⟩ := h
    dsimp only at hlast
    exact ⟨by simp [List.getLast?_append, hlast], hq⟩

/-- A bare value at the very beginning, with the character in front of it still to come. -/
def Layout.Loose (L : Layout) : Prop :=
  ∃ f fs, L.fields = f :: fs ∧ f.quote = none ∧ f.before = [] ∧ ∀ f' ∈ fs, f'.Placed

/-- `L` is a layout of the text `cs`, read from mode `m` on, also after its values have
been rewritten. Where `cs` ends no comment, the rewritten text does not end one either. -/
structure Layout.Of (m : Mode) (cs : Text) (L : Layout) : Prop where
  text : L.text = cs
  scan : ∀ g, L.Admits g → ∀ pos, scan m pos (L.rewrite g).text = (L.rewrite g).attributes pos
  closes : ∀ g, L.Admits g → ∀ d, closesComment d (L.rewrite g).text = true →
    closesComment d cs = true
  placed : (∀ f ∈ L.fields, f.Placed) ∨ (∃ tag name, m = .assigned tag name) ∧ L.Loose

theorem Layout.Of.placed_of_plain {m : Mode} {cs : Text} {L : Layout} (h : L.Of m cs)
    (hm : m.Plain) : ∀ f ∈ L.fields, f.Placed := by
  rcases h.placed with hall | ⟨⟨tag, name, rfl⟩, -⟩
  · exact hall
  · exact hm.elim

theorem Layout.placed_prepend {L : Layout} (h : ∀ f ∈ L.fields, f.Placed) (t : Text) :
    ∀ f ∈ (L.prepend t).fields, f.Placed := by
  rcases L with ⟨_ | ⟨f, fs⟩, tail⟩
  · exact h
  · intro f' hf'
    rcases List.mem_cons.mp hf' with rfl | hf'
    · exact (h f (by simp)).prepend t
    · exact h f' (by simp [hf'])

/-- The character in front of a bare value is what led to it. -/
theorem Layout.Loose.prepend {L : Layout} (h : L.Loose) {c : Char} (hc : IsLeading c) :
    ∀ f ∈ (L.prepend [c]).fields, f.Placed := by
  obtain ⟨f, fs, hfields, hquote, hbefore, hfs⟩ := h
  rcases L with ⟨fields, tail⟩
  dsimp only at hfields
  subst hfields
  intro f' hf'
  rcases List.mem_cons.mp hf' with rfl | hf'
  · unfold Field.Placed
    simp only [hquote, hbefore, List.append_nil, List.getLast?_singleton]
    exact ⟨c, rfl, hc⟩
  · exact hfs f' hf'

namespace Layout

theorem of_nil {m : Mode} (hm : ∀ pos, completedAtEnd? m pos = none) : Layout.Of m [] ⟨[], []⟩ := by
  refine ⟨rfl, fun g _ pos => ?_, fun g _ d h => h, .inl (by simp)⟩
  show Markup.scan m pos [] = []
  rw [Markup.scan, hm]
  rfl

/-- One character outside of values. -/
theorem of_step {m m' : Mode} {c : Char} {cs : Text} {L : Layout} (hstep : Leads m c m')
    (h : L.Of m' cs) : (L.prepend [c]).Of m (c :: cs) := by
  refine ⟨?_, fun g hg pos => ?_, fun g hg d => ?_, .inl ?_⟩
  · rw [text_prepend, h.text]
    rfl
  · rw [rewrite_prepend, text_prepend, attributes_prepend, List.singleton_append, Markup.scan,
      hstep.none, hstep.step, h.scan g (admits_prepend.mp hg)]
    simp
  · rw [rewrite_prepend, text_prepend]
    exact closesComment_append_left (h.closes g (admits_prepend.mp hg)) [c] d
  · rcases h.placed with hall | ⟨⟨tag, name, rfl⟩, hloose⟩
    · exact placed_prepend hall [c]
    · rcases hstep.behind with hplain | ⟨hc, -⟩
      · exact hplain.elim
      · exact hloose.prepend hc

/-- A quoted value. What replaces it must not end it early. -/
theorem of_quoted {tag name lead body rest : Text} {q : Char} {L : Layout}
    (hq : q = '"' ∨ q = '\'')
    (hstep : ∀ pos t, step (.assigned tag name) pos q t = .front tag name q (pos + 1))
    (hlead : Lead q lead) (hbody : IsBody q body rest) (h : L.Of (.tag tag) rest) :
    ((L.prepend [q]).cons ⟨[q], name.reverse, lead ++ body, some q⟩).Of (.assigned tag name)
      (q :: (lead ++ (body ++ q :: rest))) := by
  have hsize : q.utf8Size = 1 := by rcases hq with rfl | rfl <;> rfl
  have hmine (g : Text → Text → Text)
      (hg : ((L.prepend [q]).cons ⟨[q], name.reverse, lead ++ body, some q⟩).Admits g) :
      (L.Admits g) ∧ (g name.reverse (lead ++ body) = lead ++ body ∨
        Replaces q (lead ++ body) (g name.reverse (lead ++ body))) := by
    constructor
    · exact admits_prepend.mp fun f hf => hg f (List.mem_cons_of_mem _ hf)
    · rcases hg ⟨[q], name.reverse, lead ++ body, some q⟩ (by simp [cons]) with hsame | ⟨q', hq', hno⟩
      · exact .inl hsame
      · injection hq' with hq'
        subst hq'
        exact .inr hno
  refine ⟨?_, fun g hg pos => ?_, fun g hg d => ?_, .inl ?_⟩
  · rw [text_cons, text_prepend, h.text]
    simp
  · obtain ⟨hrest, hvalue⟩ := hmine g hg
    -- whatever stands there now is read as one value again
    obtain ⟨lead', body', hsplit, hlead', hbody'⟩ : ∃ lead' body',
        g name.reverse (lead ++ body) = lead' ++ body' ∧ Lead q lead' ∧
          IsBody q body' (L.rewrite g).text := by
      rcases hvalue with hsame | hreplaces
      · exact ⟨lead, body, hsame, hlead, hbody.of_closes hq (h.closes g hrest 0)⟩
      · exact exists_lead_of_uncommented hq hreplaces.unquoted hreplaces.uncommented _
    rw [rewrite_cons, rewrite_prepend, text_cons, text_prepend, attributes_cons,
      attributes_prepend]
    simp only [Field.rewrite, hsplit, List.cons_append, List.nil_append, List.append_assoc]
    rw [Markup.scan, hstep, hlead'.scan, scan_body hbody', h.scan g hrest]
    simp [completed?, hsize, Nat.add_assoc]
  · obtain ⟨hrest, hvalue⟩ := hmine g hg
    rw [rewrite_cons, rewrite_prepend, text_cons, text_prepend]
    have htexts (v t : Text) : closesComment d ([q] ++ v ++ ([q] ++ t)) =
        (closesComment 0 v || closesComment 0 t) := by
      have houter := closesComment_quote hq [] (v ++ q :: t) d
      rw [closesComment_quote hq v t 0] at houter
      simpa [closesComment] using houter
    have hsource : q :: (lead ++ (body ++ q :: rest)) = [q] ++ (lead ++ body) ++ ([q] ++ rest) := by
      simp
    simp only [Field.rewrite]
    rw [hsource, htexts, htexts, Bool.or_eq_true, Bool.or_eq_true]
    refine Or.imp (fun hclosed => ?_) (h.closes g hrest 0)
    rcases hvalue with hsame | hreplaces
    · rwa [hsame] at hclosed
    · exact hreplaces.closes hclosed
  · intro f hf
    rcases List.mem_cons.mp hf with rfl | hf
    · refine ⟨rfl, hq, fun hmem => ?_⟩
      rcases List.mem_append.mp hmem with hmem | hmem
      · exact hlead.quote hmem body
      · exact absurd hmem hbody.1
    · exact placed_prepend (h.placed_of_plain trivial) [q] f hf

/-- A value without a closing quote is none. -/
theorem of_unclosed {tag name v : Text} {q : Char}
    (hstep : ∀ pos t, step (.assigned tag name) pos q t = .front tag name q (pos + 1))
    (hv : ∀ tag name start pos, Markup.scan (.front tag name q start) pos v = []) :
    Layout.Of (.assigned tag name) (q :: v) ⟨[], q :: v⟩ := by
  refine ⟨rfl, fun g _ pos => ?_, fun g _ d h => h, .inl (by simp)⟩
  show Markup.scan (.assigned tag name) pos (q :: v) = []
  rw [Markup.scan, hstep, hv]
  rfl

/-- A bare value with a character behind it that cannot stand in one. -/
theorem of_bare {tag name v rest : Text} {c d : Char} {L : Layout}
    (hstep : ∀ pos t, step (.assigned tag name) pos c t = .bare tag name pos)
    (hv : ∀ e ∈ v, isBareChar e = true) (hd : isBareChar d = false)
    (h : L.Of (stepTag tag d) rest) :
    ((L.prepend [d]).cons ⟨[], name.reverse, c :: v, none⟩).Of (.assigned tag name)
      (c :: (v ++ d :: rest)) := by
  -- a bare value is not replaced
  have hmine (g : Text → Text → Text)
      (hg : ((L.prepend [d]).cons ⟨[], name.reverse, c :: v, none⟩).Admits g) :
      L.Admits g ∧ g name.reverse (c :: v) = c :: v := by
    constructor
    · exact admits_prepend.mp fun f hf => hg f (List.mem_cons_of_mem _ hf)
    · rcases hg ⟨[], name.reverse, c :: v, none⟩ (by simp [cons]) with hsame | ⟨q, hq, -⟩
      · exact hsame
      · exact absurd hq (by simp)
  refine ⟨?_, fun g hg pos => ?_, fun g hg k => ?_, .inr ⟨⟨tag, name, rfl⟩, _, _, rfl, rfl, rfl, ?_⟩⟩
  · rw [text_cons, text_prepend, h.text]
    simp
  · obtain ⟨hrest, hsame⟩ := hmine g hg
    rw [rewrite_cons, rewrite_prepend, text_cons, text_prepend, attributes_cons,
      attributes_prepend]
    simp only [Field.rewrite, hsame, List.nil_append, List.cons_append]
    rw [Markup.scan, hstep, scan_bare hv hd, h.scan g hrest]
    simp [completed?, Nat.add_assoc]
  · obtain ⟨hrest, hsame⟩ := hmine g hg
    rw [rewrite_cons, rewrite_prepend, text_cons, text_prepend]
    simp only [Field.rewrite, hsame, List.nil_append]
    have hkept := closesComment_append_left (h.closes g hrest) (c :: v ++ [d]) k
    simpa using hkept
  · exact placed_prepend (h.placed_of_plain (plain_stepTag tag d)) [d]

/-- A bare value at the end of the document. -/
theorem of_bare_end {tag name v : Text} {c : Char}
    (hstep : ∀ pos t, step (.assigned tag name) pos c t = .bare tag name pos)
    (hv : ∀ e ∈ v, isBareChar e = true) :
    Layout.Of (.assigned tag name) (c :: v) ⟨[⟨[], name.reverse, c :: v, none⟩], []⟩ := by
  have hsame (g : Text → Text → Text)
      (hg : Layout.Admits g ⟨[⟨[], name.reverse, c :: v, none⟩], []⟩) :
      g name.reverse (c :: v) = c :: v := by
    rcases hg ⟨[], name.reverse, c :: v, none⟩ (by simp) with hsame | ⟨q, hq, -⟩
    · exact hsame
    · exact absurd hq (by simp)
  refine ⟨by simp [text, fieldsText], fun g hg pos => ?_, fun g hg k => ?_,
    .inr ⟨⟨tag, name, rfl⟩, _, _, rfl, rfl, rfl, by simp⟩⟩
  · simp only [rewrite, List.map_cons, List.map_nil, Field.rewrite, hsame g hg, text, fieldsText,
      List.nil_append, List.append_nil, attributes, fieldsAttributes]
    rw [Markup.scan, hstep, scan_bare_end hv]
    simp [completed?, Nat.add_assoc]
  · simp [rewrite, Field.rewrite, hsame g hg, text, fieldsText]

end Layout

/-- **Every document has a layout**, from any mode outside of values on. Values are passed
as a whole, so the induction is on the length of what is left. -/
theorem exists_layout (n : Nat) : ∀ (cs : Text) (m : Mode), cs.length ≤ n → m.Outside →
    ∃ L : Layout, L.Of m cs := by
  induction n with
  | zero =>
      intro cs m hlen hm
      have hcs : cs = [] := List.length_eq_zero_iff.mp (Nat.le_zero.mp hlen)
      subst hcs
      refine ⟨⟨[], []⟩, Layout.of_nil fun pos => ?_⟩
      rcases hm with hm | ⟨tag, name, rfl⟩
      · cases m with
        | bare tag name start => exact hm.elim
        | _ => rfl
      · rfl
  | succ n ih =>
      intro cs m hlen hm
      cases cs with
      | nil => exact ih [] m (Nat.zero_le n) hm
      | cons c cs =>
          have hrest : cs.length ≤ n := Nat.le_of_succ_le_succ hlen
          -- one character outside of values
          have hnext {m' : Mode} (hstep : Leads m c m') : ∃ L : Layout, L.Of m (c :: cs) := by
            obtain ⟨L, hL⟩ := ih cs m' hrest hstep.behind.outside
            exact ⟨_, Layout.of_step hstep hL⟩
          rcases hm with hm | ⟨tag, name, rfl⟩
          · exact hnext (leads_plain hm c)
          · rcases step_assigned tag name c with ⟨m', hstep⟩ | ⟨hq, hstep⟩ | ⟨hbare, hstep⟩
            · exact hnext hstep
            · -- a quoted value, if its quote comes again
              rcases exists_value hq n cs hrest with ⟨lead, body, rest, rfl, hlead, hbody⟩ | hnone
              · have hshort : rest.length ≤ n := by simp at hrest; omega
                obtain ⟨L, hL⟩ := ih rest (.tag tag) hshort (.inl trivial)
                exact ⟨_, Layout.of_quoted hq hstep hlead hbody hL⟩
              · exact ⟨_, Layout.of_unclosed hstep hnone⟩
            · -- a bare value runs up to the first character that cannot stand in one
              have hv : ∀ e ∈ cs.takeWhile isBareChar, isBareChar e = true :=
                fun e he => List.all_eq_true.mp List.all_takeWhile e he
              have hcut := List.takeWhile_append_dropWhile (p := isBareChar) (l := cs)
              cases hdrop : cs.dropWhile isBareChar with
              | nil =>
                  rw [hdrop, List.append_nil] at hcut
                  rw [← hcut]
                  exact ⟨_, Layout.of_bare_end hstep hv⟩
              | cons d rest =>
                  have hd : isBareChar d = false := by
                    have := List.head?_dropWhile_not isBareChar cs
                    rw [hdrop] at this
                    simpa using this
                  rw [hdrop] at hcut
                  have hshort : rest.length ≤ n := by
                    have := congrArg List.length hcut
                    simp at this
                    omega
                  obtain ⟨L, hL⟩ := ih rest _ hshort (.inl (plain_stepTag tag d))
                  rw [← hcut]
                  exact ⟨_, Layout.of_bare hstep hv hd hL⟩

/-- The layout of a whole document. -/
theorem exists_layout_of_document (source : Text) :
    ∃ L : Layout, L.Of .text source ∧ ∀ f ∈ L.fields, f.Placed := by
  obtain ⟨L, hL⟩ := exists_layout source.length source .text (Nat.le_refl _) (.inl trivial)
  exact ⟨L, hL, hL.placed_of_plain trivial⟩

end ClassSort.Markup
