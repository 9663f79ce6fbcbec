import ClassSort.Proofs.WordSeams

/-!
# Tokens and the gaps between them

The tokens of a class list are its maximal runs of characters that are no blanks, each with
the byte at which it begins. Three facts make that exact.

* **Which tokens there are**: a token is a word that no other character without a blank
  touches, neither in front nor behind, and every such word is a token (`isRun_of_mem_place`,
  `mem_tokens_of_isRun`).
* **Where they are**: each ends before the next begins (`pairwise_place`).
* **What is left**: the ranges that the tokens leave hold blanks only, and those between two
  tokens hold at least one (`slice?_gapSpans`, `Parted.inner`).

The first two are inductions over the pieces of a division, with the text in front of them as
the parameter that grows.
-/

namespace ClassSort.ClassList

/-- A word of the text that nothing touches, at its place. -/
def IsRun (value : Text) (t : Token) : Prop :=
  ∃ before after, value = before ++ t.text ++ after ∧ Text.size before = t.offset ∧
    IsWord t.text ∧ lastRun before = [] ∧ firstRun after = []

/-- The ranges that tokens leave between `start` and `stop`: in front of each of them, and
behind the last. -/
def gapSpans (start stop : Nat) : List Token → List Span
  | [] => [⟨start, stop⟩]
  | t :: ts => ⟨start, t.offset⟩ :: gapSpans (t.offset + Text.size t.text) stop ts

/-- Gaps and words in turn, a gap first. -/
def interleave : List Text → List Text → Text
  | g :: gs, w :: ws => g ++ w ++ interleave gs ws
  | gs, _ => gs.flatten

/-! ## Which tokens there are -/

theorem place_append (offset : Nat) (ps qs : List Piece) :
    place offset (ps ++ qs) = place offset ps ++
      place (offset + Text.size (ps.flatMap fun p => p.word ++ p.gap)) qs := by
  induction ps generalizing offset with
  | nil => rfl
  | cons p ps ih =>
      have hoffset : offset + Text.size p.word + Text.size p.gap +
          Text.size (ps.flatMap fun q => q.word ++ q.gap) =
          offset + Text.size ((p :: ps).flatMap fun q => q.word ++ q.gap) := by
        simp only [List.flatMap_cons, Text.size_append]
        omega
      rw [List.cons_append, place, ih, hoffset]
      rfl

theorem ne_nil_of_mem_place {offset : Nat} {ps : List Piece} {t : Token}
    (ht : t ∈ place offset ps) : ps ≠ [] := by
  rintro rfl
  exact absurd ht List.not_mem_nil

/-- **Every token is a run**, whatever stands in front of the pieces, if no run ends there. -/
theorem isRun_of_mem_place {ps : List Piece} (hps : Parted ps) {front : Text}
    (hfront : lastRun front = []) {t : Token} (ht : t ∈ place (Text.size front) ps) :
    IsRun (front ++ ps.flatMap fun p => p.word ++ p.gap) t := by
  induction ps generalizing front with
  | nil => exact absurd ht List.not_mem_nil
  | cons p ps ih =>
      rcases List.mem_cons.mp ht with rfl | ht
      · refine ⟨front, p.gap ++ ps.flatMap fun q => q.word ++ q.gap, ?_, rfl, hps.1, hfront,
          firstRun_behind hps⟩
        simp
      · obtain ⟨-, hgap, hseam, hrest⟩ := hps
        have hgap' : p.gap ≠ [] := hseam (ne_nil_of_mem_place ht)
        have hfront' : lastRun (front ++ p.word ++ p.gap) = [] := lastRun_gap _ hgap hgap'
        have hsize : Text.size front + Text.size p.word + Text.size p.gap =
            Text.size (front ++ p.word ++ p.gap) := by simp only [Text.size_append]
        rw [hsize] at ht
        have hrun := ih hrest hfront' ht
        simpa using hrun

/-- The division of a text around a word that nothing touches. -/
theorem divide_around {before w after : Text} (hw : IsWord w) (hbefore : lastRun before = [])
    (hafter : firstRun after = []) :
    divide (before ++ w ++ after) = ⟨(divide before).leading,
      (divide before).pieces ++ ⟨w, (divide after).leading⟩ :: (divide after).pieces⟩ := by
  have hl := divide_proper before
  have hr := divide_proper after
  have hbehind : (divide after).pieces ≠ [] → (divide after).leading ≠ [] := by
    intro hne
    rcases (firstRun_eq_nil_iff after).mp hafter with h | h
    · exact h
    · exact absurd (List.map_eq_nil_iff.mp h) hne
  have hseam : (divide before).pieces ≠ [] → lastGap (divide before).pieces ≠ [] := by
    intro hne
    rcases (lastRun_eq_nil_iff before).mp hbefore with h | h
    · exact h
    · exact absurd (List.map_eq_nil_iff.mp h) hne
  have hproper : Division.Proper ⟨(divide before).leading,
      (divide before).pieces ++ ⟨w, (divide after).leading⟩ :: (divide after).pieces⟩ :=
    ⟨hl.leading, parted_append.mpr
      ⟨hl.pieces, ⟨hw, hr.leading, hbehind, hr.pieces⟩, fun hne _ => hseam hne⟩⟩
  have htext := divide_text hproper
  have hvalue : Division.text ⟨(divide before).leading,
      (divide before).pieces ++ ⟨w, (divide after).leading⟩ :: (divide after).pieces⟩ =
      before ++ w ++ after := by
    conv => rhs; rw [← text_divide before, ← text_divide after]
    simp [Division.text]
  rwa [hvalue] at htext

/-- **Every run is a token.** -/
theorem mem_tokens_of_isRun {value : Text} {t : Token} (h : IsRun value t) : t ∈ tokens value := by
  obtain ⟨before, after, rfl, hoffset, hw, hbefore, hafter⟩ := h
  have hsize : Text.size (divide before).leading +
      Text.size ((divide before).pieces.flatMap fun p => p.word ++ p.gap) = t.offset := by
    rw [← Text.size_append, ← hoffset]
    exact congrArg Text.size (text_divide before)
  unfold tokens
  rw [divide_around hw hbefore hafter]
  dsimp only
  rw [place_append, hsize]
  exact List.mem_append_right _ List.mem_cons_self

theorem mem_tokens_iff (value : Text) (t : Token) : t ∈ tokens value ↔ IsRun value t := by
  refine ⟨?_, mem_tokens_of_isRun⟩
  intro ht
  have hproper := divide_proper value
  have hrun := isRun_of_mem_place hproper.pieces (lastRun_of_isGap hproper.leading) ht
  have htext : (divide value).leading ++
      ((divide value).pieces.flatMap fun p => p.word ++ p.gap) = value := text_divide value
  rwa [htext] at hrun

theorem IsRun.isWord {value : Text} {t : Token} (h : IsRun value t) : IsWord t.text := by
  obtain ⟨-, -, -, -, hword, -⟩ := h
  exact hword

/-- A run is what stands at its place. -/
theorem IsRun.slice? {value : Text} {t : Token} (h : IsRun value t) :
    Text.slice? value ⟨t.offset, t.offset + Text.size t.text⟩ = some t.text := by
  obtain ⟨before, after, hvalue, hoffset, -⟩ := h
  exact Text.slice?_eq_some.mpr ⟨before, after, hvalue, hoffset, rfl⟩

/-! ## Where they are -/

theorem le_offset_of_mem_place {offset : Nat} {ps : List Piece} {t : Token}
    (ht : t ∈ place offset ps) : offset ≤ t.offset := by
  induction ps generalizing offset with
  | nil => exact absurd ht List.not_mem_nil
  | cons p ps ih =>
      rcases List.mem_cons.mp ht with rfl | ht
      · exact Nat.le_refl _
      · have hle := ih ht
        omega

/-- **Each token ends before the next begins.** -/
theorem pairwise_place {ps : List Piece} (hps : Parted ps) (offset : Nat) :
    (place offset ps).Pairwise fun s t => s.offset + Text.size s.text < t.offset := by
  induction ps generalizing offset with
  | nil => exact .nil
  | cons p ps ih =>
      obtain ⟨-, -, hseam, hrest⟩ := hps
      refine List.pairwise_cons.mpr ⟨?_, ih hrest _⟩
      intro t ht
      have hgap := Text.size_pos (hseam (ne_nil_of_mem_place ht))
      have hle := le_offset_of_mem_place ht
      dsimp only
      omega

/-! ## What is left -/

/-- **What the tokens leave**: the blanks in front, then the gap of each piece. -/
theorem slice?_gapSpans (front leading : Text) (ps : List Piece) {value : Text}
    (hvalue : value = front ++ leading ++ ps.flatMap fun p => p.word ++ p.gap) :
    (gapSpans (Text.size front) (Text.size value)
        (place (Text.size front + Text.size leading) ps)).map (Text.slice? value) =
      (leading :: ps.map Piece.gap).map some := by
  induction ps generalizing front leading with
  | nil =>
      rw [List.flatMap_nil] at hvalue
      have hslice := Text.slice?_append front leading []
      have hsize : Text.size value = Text.size front + Text.size leading := by simp [hvalue]
      rw [← hvalue] at hslice
      simp [place, gapSpans, hsize, hslice]
  | cons p ps ih =>
      have hslice := Text.slice?_append front leading ((p :: ps).flatMap fun q => q.word ++ q.gap)
      rw [← hvalue] at hslice
      have hrest := ih (front ++ leading ++ p.word) p.gap (by simp [hvalue])
      simp only [Text.size_append] at hrest
      simp only [place, gapSpans, List.map_cons, hslice, hrest]

theorem interleave_pieces (leading : Text) (ps : List Piece) :
    interleave (leading :: ps.map Piece.gap) (ps.map (·.word)) =
      leading ++ ps.flatMap fun p => p.word ++ p.gap := by
  induction ps generalizing leading with
  | nil => simp [interleave]
  | cons p ps ih => simp [interleave, ih]

/-- Between two words is a blank. -/
theorem Parted.inner {ps : List Piece} (h : Parted ps) :
    ∀ g ∈ (ps.map Piece.gap).dropLast, g ≠ [] := by
  induction ps with
  | nil => intro g hg; exact absurd hg (by simp)
  | cons p ps ih =>
      obtain ⟨-, -, hseam, hrest⟩ := h
      cases ps with
      | nil => intro g hg; exact absurd hg (by simp)
      | cons q ps =>
          intro g hg
          rcases List.mem_cons.mp hg with rfl | hg
          · exact hseam (by simp)
          · exact ih hrest g hg

/-- **The tokens of a text are its maximal runs without blanks.** A token is a word that
nothing touches, at its place, and all such words are tokens; each is the slice at its offset
and ends before the next begins. What they leave are gaps of blanks, not empty between two
tokens, and gaps and tokens in turn are the text. -/
theorem tokens_are_maximal_runs (value : Text) :
    (∀ t, t ∈ tokens value ↔ IsRun value t) ∧
    (∀ t ∈ tokens value, IsWord t.text ∧
      Text.slice? value ⟨t.offset, t.offset + Text.size t.text⟩ = some t.text) ∧
    (tokens value).Pairwise (fun s t => s.offset + Text.size s.text < t.offset) ∧
    ∃ gaps : List Text,
      (gapSpans 0 (Text.size value) (tokens value)).map (Text.slice? value) = gaps.map some ∧
      (∀ g ∈ gaps, IsGap g) ∧ (∀ g ∈ gaps.tail.dropLast, g ≠ []) ∧
      interleave gaps ((tokens value).map (·.text)) = value := by
  have hproper := divide_proper value
  have htext : (divide value).leading ++
      ((divide value).pieces.flatMap fun p => p.word ++ p.gap) = value := text_divide value
  refine ⟨mem_tokens_iff value, ?_, pairwise_place hproper.pieces _,
    (divide value).leading :: (divide value).pieces.map Piece.gap, ?_, ?_, hproper.pieces.inner, ?_⟩
  · intro t ht
    have hrun := (mem_tokens_iff value t).mp ht
    exact ⟨hrun.isWord, hrun.slice?⟩
  · have hgaps := slice?_gapSpans [] (divide value).leading (divide value).pieces htext.symm
    rw [Text.size_nil, Nat.zero_add] at hgaps
    exact hgaps
  · intro g hg
    rcases List.mem_cons.mp hg with rfl | hg
    · exact hproper.leading
    · obtain ⟨p, hp, rfl⟩ := List.mem_map.mp hg
      exact hproper.pieces.gap p hp
  · rw [map_text_tokens, interleave_pieces, htext]

/-- Blanks of three bytes and of one, and a letter of two: the second token begins at byte 6,
and what begins inside it is no run. -/
theorem tokens_are_maximal_runs_wide :
    tokens "\u3000a  éb\n".toList = [⟨"a".toList, 3⟩, ⟨"éb".toList, 6⟩] ∧
    IsRun "\u3000a  éb\n".toList ⟨"éb".toList, 6⟩ ∧ ¬ IsRun "\u3000a  éb\n".toList ⟨"b".toList, 8⟩ ∧
    Text.slice? "\u3000a  éb\n".toList ⟨6, 9⟩ = some "éb".toList := by
  have htokens : tokens "\u3000a  éb\n".toList = [⟨"a".toList, 3⟩, ⟨"éb".toList, 6⟩] := by decide
  obtain ⟨hruns, hplaces, -⟩ := tokens_are_maximal_runs "\u3000a  éb\n".toList
  rw [htokens] at hruns hplaces
  exact ⟨htokens, (hruns _).mp (by simp), fun h => absurd ((hruns _).mpr h) (by decide),
    (hplaces ⟨"éb".toList, 6⟩ (by simp)).2⟩

end ClassSort.ClassList
