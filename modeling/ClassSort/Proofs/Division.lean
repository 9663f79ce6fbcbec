import ClassSort.ClassList.Sort
import ClassSort.Proofs.Slices

/-!
# Words and the blanks between them

`divide` takes a class list apart and `Division.text` puts it back. The two are inverse
to each other on *proper* divisions: leading blanks, then words without blanks, each
followed by a gap of blanks that is empty at most behind the last word.

* every division that `divide` finds is proper and has the divided text;
* a proper division is found again in its own text.

The second half is what makes statements about a rebuilt list possible. Whoever writes
a list as the text of a proper division knows its words and gaps without reading it again.
-/

namespace ClassSort.ClassList

/-- A run of blanks, perhaps an empty one. -/
def IsGap (g : Text) : Prop := ∀ c ∈ g, Text.isBlank c = true

/-- A class: at least one character, and no blank among them. -/
def IsWord (w : Text) : Prop := w ≠ [] ∧ ∀ c ∈ w, Text.isBlank c = false

/-- Words that do not run together. -/
def Parted : List Piece → Prop
  | [] => True
  | p :: ps => IsWord p.word ∧ IsGap p.gap ∧ (ps ≠ [] → p.gap ≠ []) ∧ Parted ps

/-- A division whose words are exactly the runs without blanks in its text. -/
structure Division.Proper (d : Division) : Prop where
  leading : IsGap d.leading
  pieces : Parted d.pieces

theorem isGap_nil : IsGap [] := by intro c hc; exact absurd hc (by simp)

theorem isGap_space : IsGap [' '] := by
  intro c hc
  rw [List.mem_singleton.mp hc]
  decide

theorem IsGap.cons {c : Char} {g : Text} (hc : Text.isBlank c = true) (hg : IsGap g) :
    IsGap (c :: g) := by
  intro d hd
  rcases List.mem_cons.mp hd with rfl | hd
  · exact hc
  · exact hg d hd

theorem IsWord.cons {c : Char} {w : Text} (hc : Text.isBlank c = false)
    (hw : ∀ d ∈ w, Text.isBlank d = false) : IsWord (c :: w) := by
  refine ⟨by simp, ?_⟩
  intro d hd
  rcases List.mem_cons.mp hd with rfl | hd
  · exact hc
  · exact hw d hd

theorem Parted.word {ps : List Piece} (h : Parted ps) : ∀ p ∈ ps, IsWord p.word := by
  induction ps with
  | nil => intro p hp; exact absurd hp (by simp)
  | cons q ps ih =>
      intro p hp
      rcases List.mem_cons.mp hp with rfl | hp
      · exact h.1
      · exact ih h.2.2.2 p hp

theorem Parted.gap {ps : List Piece} (h : Parted ps) : ∀ p ∈ ps, IsGap p.gap := by
  induction ps with
  | nil => intro p hp; exact absurd hp (by simp)
  | cons q ps ih =>
      intro p hp
      rcases List.mem_cons.mp hp with rfl | hp
      · exact h.2.1
      · exact ih h.2.2.2 p hp

/-- Pieces in a row are parted when both halves are and the seam has a gap. -/
theorem parted_append {ps qs : List Piece} :
    Parted (ps ++ qs) ↔ Parted ps ∧ Parted qs ∧ (ps ≠ [] → qs ≠ [] → lastGap ps ≠ []) := by
  induction ps with
  | nil => simp [Parted]
  | cons p ps ih =>
      cases ps with
      | nil =>
          simp only [List.singleton_append, Parted, lastGap, List.getLast?_singleton]
          constructor
          · rintro ⟨hw, hg, hseam, hqs⟩
            exact ⟨⟨hw, hg, fun h => absurd rfl h, trivial⟩, hqs, fun _ => hseam⟩
          · rintro ⟨⟨hw, hg, -, -⟩, hqs, hseam⟩
            exact ⟨hw, hg, hseam (by simp), hqs⟩
      | cons q ps =>
          have hlast : lastGap (p :: q :: ps) = lastGap (q :: ps) := rfl
          rw [List.cons_append, Parted, ih, hlast, Parted]
          constructor
          · rintro ⟨hw, hg, hin, hps, hqs, hseam⟩
            exact ⟨⟨hw, hg, fun _ => hin (by simp), hps⟩, hqs, fun _ => hseam (by simp)⟩
          · rintro ⟨⟨hw, hg, hin, hps⟩, hqs, hseam⟩
            exact ⟨hw, hg, fun _ => hin (by simp), hps, hqs, fun _ => hseam (by simp)⟩

/-! ## The division of a text -/

theorem divide_blank {c : Char} {cs : Text} (hc : Text.isBlank c = true) :
    divide (c :: cs) = ⟨c :: (divide cs).leading, (divide cs).pieces⟩ := by
  rw [divide]
  simp [hc]

/-- A character that is no blank extends the word behind it. -/
theorem divide_extend {c : Char} {cs : Text} {p : Piece} {ps : List Piece}
    (hc : Text.isBlank c = false) (hd : divide cs = ⟨[], p :: ps⟩) :
    divide (c :: cs) = ⟨[], ⟨c :: p.word, p.gap⟩ :: ps⟩ := by
  rw [divide]
  simp [hc, hd]

/-- A character in front of a blank or of nothing is a word of its own. -/
theorem divide_begin {c : Char} {cs gap : Text} {ps : List Piece}
    (hc : Text.isBlank c = false) (hd : divide cs = ⟨gap, ps⟩) (hnew : ps ≠ [] → gap ≠ []) :
    divide (c :: cs) = ⟨[], ⟨[c], gap⟩ :: ps⟩ := by
  rw [divide]
  simp only [hc, hd, Bool.false_eq_true, if_false]
  split
  · exact absurd rfl (hnew (by simp))
  · rfl

/-- What `divide` does with a character that is no blank. -/
theorem divide_cases {c : Char} (cs : Text) (hc : Text.isBlank c = false) :
    (∃ p ps, divide cs = ⟨[], p :: ps⟩ ∧ divide (c :: cs) = ⟨[], ⟨c :: p.word, p.gap⟩ :: ps⟩) ∨
    ((divide cs).pieces ≠ [] → (divide cs).leading ≠ []) ∧
      divide (c :: cs) = ⟨[], ⟨[c], (divide cs).leading⟩ :: (divide cs).pieces⟩ := by
  rcases hd : divide cs with ⟨leading, pieces⟩
  rcases leading with _ | ⟨b, g⟩
  · rcases pieces with _ | ⟨p, ps⟩
    · exact .inr ⟨fun h => absurd rfl h, divide_begin hc hd (fun h => absurd rfl h)⟩
    · exact .inl ⟨p, ps, rfl, divide_extend hc hd⟩
  · exact .inr ⟨fun _ => by simp, divide_begin hc hd (fun _ => by simp)⟩

/-- **Nothing is lost**: a division has the text that was divided. -/
theorem text_divide (value : Text) : (divide value).text = value := by
  induction value with
  | nil => rfl
  | cons c cs ih =>
      cases hc : Text.isBlank c with
      | true =>
          rw [divide_blank hc]
          exact congrArg (c :: ·) ih
      | false =>
          rcases divide_cases cs hc with ⟨p, ps, hd, heq⟩ | ⟨-, heq⟩
          · rw [heq]
            rw [hd] at ih
            simp only [Division.text, List.nil_append, List.flatMap_cons] at ih ⊢
            rw [List.cons_append, List.cons_append, ih]
          · rw [heq]
            simp only [Division.text, List.nil_append, List.flatMap_cons, List.append_assoc]
            exact congrArg (c :: ·) ih

/-- **Every division is proper.** -/
theorem divide_proper (value : Text) : (divide value).Proper := by
  induction value with
  | nil => exact ⟨isGap_nil, trivial⟩
  | cons c cs ih =>
      cases hc : Text.isBlank c with
      | true =>
          rw [divide_blank hc]
          exact ⟨ih.leading.cons hc, ih.pieces⟩
      | false =>
          rcases divide_cases cs hc with ⟨p, ps, hd, heq⟩ | ⟨hnew, heq⟩
          · rw [heq]
            rw [hd] at ih
            obtain ⟨hw, hg, hin, hps⟩ := ih.pieces
            exact ⟨isGap_nil, IsWord.cons hc hw.2, hg, hin, hps⟩
          · rw [heq]
            exact ⟨isGap_nil, IsWord.cons hc (by simp), ih.leading, hnew, ih.pieces⟩

/-! ## The division of a rebuilt text -/

theorem divide_gap {g : Text} (hg : IsGap g) (cs : Text) :
    divide (g ++ cs) = ⟨g ++ (divide cs).leading, (divide cs).pieces⟩ := by
  induction g with
  | nil => rfl
  | cons c g ih =>
      have hrest : IsGap g := fun d hd => hg d (List.mem_cons_of_mem c hd)
      rw [List.cons_append, divide_blank (hg c (by simp)), ih hrest]
      rfl

theorem divide_word {w cs gap : Text} {ps : List Piece} (hw : IsWord w)
    (hd : divide cs = ⟨gap, ps⟩) (hnew : ps ≠ [] → gap ≠ []) :
    divide (w ++ cs) = ⟨[], ⟨w, gap⟩ :: ps⟩ := by
  obtain ⟨hne, hchars⟩ := hw
  -- the last character begins the word, and those before it extend it
  induction w with
  | nil => exact absurd rfl hne
  | cons c w ih =>
      have hc : Text.isBlank c = false := hchars c (by simp)
      cases w with
      | nil => exact divide_begin hc hd hnew
      | cons c' w =>
          have hrest : divide (c' :: w ++ cs) = ⟨[], ⟨c' :: w, gap⟩ :: ps⟩ :=
            ih (by simp) (fun d hd => hchars d (List.mem_cons_of_mem c hd))
          exact divide_extend hc hrest

theorem divide_pieces {ps : List Piece} (h : Parted ps) :
    divide (ps.flatMap fun p => p.word ++ p.gap) = ⟨[], ps⟩ := by
  induction ps with
  | nil => rfl
  | cons p ps ih =>
      obtain ⟨hw, hg, hin, hps⟩ := h
      rw [List.flatMap_cons, List.append_assoc]
      refine divide_word hw ?_ hin
      rw [divide_gap hg, ih hps, List.append_nil]

/-- **A proper division is found again in its text.** -/
theorem divide_text {d : Division} (h : d.Proper) : divide d.text = d := by
  rw [Division.text, divide_gap h.leading, divide_pieces h.pieces, List.append_nil]

/-! ## Tokens -/

theorem map_text_place (offset : Nat) (ps : List Piece) :
    (place offset ps).map (·.text) = ps.map (·.word) := by
  induction ps generalizing offset with
  | nil => rfl
  | cons p ps ih => simp [place, ih]

/-- The tokens of a list are the words of its division. -/
theorem map_text_tokens (value : Text) :
    (tokens value).map (·.text) = (divide value).pieces.map (·.word) :=
  map_text_place _ _

/-! ## The interpolation mark

The mark has no blank in it, so a list holds one exactly when one of its words does.
-/

theorem mark_prefix_cons_iff (c : Char) (cs : Text) :
    interpolationMark.isPrefixOf (c :: cs) = true ↔ c = '{' ∧ cs.head? = some '{' := by
  cases cs with
  | nil => simp [interpolationMark, List.isPrefixOf]
  | cons d cs =>
      simp only [interpolationMark, List.isPrefixOf, Bool.and_true, Bool.and_eq_true,
        beq_iff_eq, List.head?_cons, Option.some.injEq]
      rw [eq_comm (a := c), eq_comm (a := d)]

theorem isBlank_mark : Text.isBlank '{' = false := by decide

/-- What follows the words of a list begins with its leading blanks, if it has any. -/
theorem head?_of_divide {cs : Text} {b : Char} {g : Text} {ps : List Piece}
    (hd : divide cs = ⟨b :: g, ps⟩) : cs.head? = some b := by
  rw [← text_divide cs, hd]
  rfl

theorem includes_mark_iff (value : Text) :
    Text.includes interpolationMark value = true ↔
      ∃ p ∈ (divide value).pieces, Text.includes interpolationMark p.word = true := by
  induction value with
  | nil => simp [Text.includes, divide, interpolationMark]
  | cons c cs ih =>
      rw [Text.includes, Bool.or_eq_true, mark_prefix_cons_iff, ih]
      cases hc : Text.isBlank c with
      | true =>
          have hne : c ≠ '{' := by rintro rfl; exact absurd hc (by simp [isBlank_mark])
          rw [divide_blank hc]
          simp [hne]
      | false =>
          rcases divide_cases cs hc with ⟨p, ps, hd, heq⟩ | ⟨hnew, heq⟩
          · -- the word behind `c` begins where the rest does
            have hw : p.word ≠ [] := by
              have := (divide_proper cs).pieces
              rw [hd] at this
              exact this.1.1
            have hhead : cs.head? = p.word.head? := by
              have htext := text_divide cs
              rw [hd] at htext
              rw [← htext]
              obtain ⟨d, w, hcons⟩ := List.exists_cons_of_ne_nil hw
              simp [Division.text, hcons]
            rw [heq, hd]
            simp only [List.mem_cons, exists_eq_or_imp]
            rw [Text.includes, Bool.or_eq_true, mark_prefix_cons_iff, hhead, or_assoc]
          · -- `c` stands in front of a blank or of nothing
            have hno : cs.head? ≠ some '{' := by
              intro hhead
              rcases hd : divide cs with ⟨_ | ⟨b, g⟩, ps⟩
              · rw [hd] at hnew
                have hps : ps = [] := by
                  cases ps with
                  | nil => rfl
                  | cons p ps => exact absurd rfl (hnew (by simp))
                have hcs : cs = [] := by rw [← text_divide cs, hd, hps]; rfl
                rw [hcs] at hhead
                exact absurd hhead (by simp)
              · have hb : Text.isBlank b = true := by
                  have := (divide_proper cs).leading
                  rw [hd] at this
                  exact this b (by simp)
                rw [head?_of_divide hd] at hhead
                injection hhead with hb'
                rw [hb', isBlank_mark] at hb
                exact absurd hb (by simp)
            have hone : Text.includes interpolationMark [c] = false := by
              simp [Text.includes, interpolationMark, List.isPrefixOf]
            rw [heq]
            simp [hno, hone]

end ClassSort.ClassList
