import ClassSort.Proofs.SortedList

/-!
# Words across a seam

When texts are put together, the last word of one and the first word of the next become one
word, unless there is a blank between them. So the words of a whole depend on more than the
words of its parts: on the **runs** at their ends, which are empty where a blank stands.

Everything rests on one equation, `words_append`: the words of `a ++ b` are those of `a`
without its last run, then the two runs at the seam as one word, then those of `b` without its
first run.

A text may be rewritten so that its words are permuted and its outer blanks stay
(`Rewritten`); sorting does that. Texts rewritten one by one give a whole with the same words
if **no run that touches something is changed** (`words_joined_perm`).
-/

namespace ClassSort.ClassList

/-- The words of a text, in order. -/
def words (value : Text) : List Text := (divide value).pieces.map (·.word)

/-- No blank in it. -/
def Solid (t : Text) : Prop := ∀ c ∈ t, Text.isBlank c = false

instance (t : Text) : Decidable (Solid t) :=
  inferInstanceAs (Decidable (∀ c ∈ t, Text.isBlank c = false))

/-- What stands before the first blank. -/
def firstRun (t : Text) : Text := t.takeWhile fun c => !Text.isBlank c

/-- What stands behind the first run. -/
def back (t : Text) : Text := t.dropWhile fun c => !Text.isBlank c

/-- What stands behind the last blank. -/
def lastRun (t : Text) : Text := (firstRun t.reverse).reverse

/-- What stands before the last run. -/
def front (t : Text) : Text := (back t.reverse).reverse

/-- A run as a word, if it is one. -/
def solo (run : Text) : List Text := if run = [] then [] else [run]

/-! ## Runs -/

theorem firstRun_append_back (t : Text) : firstRun t ++ back t = t :=
  List.takeWhile_append_dropWhile

theorem front_append_lastRun (t : Text) : front t ++ lastRun t = t := by
  unfold front lastRun
  rw [← List.reverse_append, firstRun_append_back, List.reverse_reverse]

theorem solid_firstRun (t : Text) : Solid (firstRun t) := by
  intro c hc
  have hall := List.all_eq_true.mp (List.all_takeWhile (l := t) (p := fun c => !Text.isBlank c))
  have hthis := hall c hc
  simpa using hthis

theorem solid_lastRun (t : Text) : Solid (lastRun t) :=
  fun c hc => solid_firstRun t.reverse c (List.mem_reverse.mp hc)

/-- Behind the first run is nothing or a blank. -/
theorem back_cases (t : Text) :
    back t = [] ∨ ∃ c cs, back t = c :: cs ∧ Text.isBlank c = true := by
  induction t with
  | nil => exact .inl rfl
  | cons c cs ih =>
      cases hc : Text.isBlank c with
      | true => exact .inr ⟨c, cs, List.dropWhile_cons_of_neg (by simp [hc]), hc⟩
      | false =>
          have hback : back (c :: cs) = back cs := List.dropWhile_cons_of_pos (by simp [hc])
          rw [hback]
          exact ih

theorem front_cases (t : Text) :
    front t = [] ∨ ∃ cs c, front t = cs ++ [c] ∧ Text.isBlank c = true := by
  unfold front
  rcases back_cases t.reverse with hnil | ⟨c, cs, hcons, hc⟩
  · exact .inl (by rw [hnil]; rfl)
  · exact .inr ⟨cs.reverse, c, by rw [hcons, List.reverse_cons], hc⟩

theorem firstRun_of_blank {c : Char} (hc : Text.isBlank c = true) (cs : Text) :
    firstRun (c :: cs) = [] := List.takeWhile_cons_of_neg (by simp [hc])

theorem firstRun_append (a b : Text) :
    firstRun (a ++ b) = if Solid a then a ++ firstRun b else firstRun a := by
  induction a with
  | nil => exact (if_pos (by simp [Solid])).symm
  | cons c a ih =>
      cases hc : Text.isBlank c with
      | true =>
          have hnot : ¬ Solid (c :: a) := fun h => by
            have hthis := h c List.mem_cons_self
            rw [hc] at hthis
            exact absurd hthis (by simp)
          rw [if_neg hnot, List.cons_append, firstRun_of_blank hc, firstRun_of_blank hc]
      | false =>
          have hstep : ∀ cs, firstRun (c :: cs) = c :: firstRun cs :=
            fun cs => List.takeWhile_cons_of_pos (by simp [hc])
          have hsolid : Solid (c :: a) ↔ Solid a := by simp [Solid, hc]
          rw [List.cons_append, hstep, hstep, ih]
          by_cases ha : Solid a
          · rw [if_pos ha, if_pos (hsolid.mpr ha), List.cons_append]
          · rw [if_neg ha, if_neg (fun h => ha (hsolid.mp h))]

theorem lastRun_append (a b : Text) :
    lastRun (a ++ b) = if Solid b then lastRun a ++ b else lastRun b := by
  have hsolid : Solid b.reverse ↔ Solid b := by simp [Solid]
  unfold lastRun
  rw [List.reverse_append, firstRun_append]
  by_cases hb : Solid b
  · rw [if_pos hb, if_pos (hsolid.mpr hb), List.reverse_append, List.reverse_reverse]
  · rw [if_neg hb, if_neg (fun h => hb (hsolid.mp h))]

theorem lastRun_of_blank {c : Char} (hc : Text.isBlank c = true) (cs : Text) :
    lastRun (cs ++ [c]) = [] := by
  unfold lastRun
  rw [List.reverse_append, List.reverse_singleton, List.singleton_append, firstRun_of_blank hc]
  rfl

theorem lastRun_gap (a : Text) {g : Text} (hg : IsGap g) (hne : g ≠ []) :
    lastRun (a ++ g) = [] := by
  have hlast : g = g.dropLast ++ [g.getLast hne] := (List.dropLast_concat_getLast hne).symm
  rw [hlast, ← List.append_assoc]
  exact lastRun_of_blank (hg _ (List.getLast_mem hne)) _

theorem lastRun_of_isGap {g : Text} (hg : IsGap g) : lastRun g = [] := by
  by_cases hne : g = []
  · rw [hne]
    rfl
  · exact lastRun_gap [] hg hne

theorem firstRun_of_startsBlank {t : Text} (h : Text.startsBlank t = true) : firstRun t = [] := by
  cases t with
  | nil => rfl
  | cons c t => exact firstRun_of_blank h t

theorem lastRun_of_endsBlank {t : Text} (h : Text.endsBlank t = true) : lastRun t = [] := by
  unfold lastRun
  rw [firstRun_of_startsBlank h]
  rfl

/-! ## The words of a whole -/

theorem words_blank {c : Char} (hc : Text.isBlank c = true) (cs : Text) :
    words (c :: cs) = words cs := by
  unfold words
  rw [divide_blank hc]

theorem words_solid_append {run cs : Text} (hrun : Solid run)
    (hcs : cs = [] ∨ ∃ c t, cs = c :: t ∧ Text.isBlank c = true) :
    words (run ++ cs) = solo run ++ words cs := by
  by_cases hnil : run = []
  · rw [hnil]
    rfl
  · have hnew : (divide cs).pieces ≠ [] → (divide cs).leading ≠ [] := by
      rcases hcs with rfl | ⟨c, t, rfl, hc⟩
      · exact fun h => absurd rfl h
      · rw [divide_blank hc]
        exact fun _ => by simp
    have hcs : divide cs = ⟨(divide cs).leading, (divide cs).pieces⟩ := rfl
    have hdivide := divide_word ⟨hnil, hrun⟩ hcs hnew
    unfold words solo
    rw [hdivide, if_neg hnil]
    rfl

/-- **A blank parts the words on either side of it.** -/
theorem words_append_blank {c : Char} (hc : Text.isBlank c = true) (x y : Text) :
    words (x ++ c :: y) = words x ++ words y := by
  have hx := firstRun_append_back x
  rcases back_cases x with hnil | ⟨d, t, hcons, hd⟩
  · rw [hnil, List.append_nil] at hx
    have hsolid := solid_firstRun x
    rw [hx] at hsolid
    have hwords := words_solid_append hsolid (.inl rfl)
    rw [List.append_nil] at hwords
    rw [words_solid_append hsolid (.inr ⟨c, y, rfl, hc⟩), words_blank hc, hwords]
    simp [words, divide]
  · rw [hcons] at hx
    have hshorter : t.length < x.length := by
      rw [← hx, List.length_append, List.length_cons]
      omega
    have hrest := words_append_blank hc t y
    rw [← hx, List.append_assoc, List.cons_append,
      words_solid_append (solid_firstRun x) (.inr ⟨d, _, rfl, hd⟩), words_blank hd, hrest,
      words_solid_append (solid_firstRun x) (.inr ⟨d, _, rfl, hd⟩), words_blank hd,
      List.append_assoc]
termination_by x.length

theorem words_front_append (a t : Text) : words (front a ++ t) = words (front a) ++ words t := by
  rcases front_cases a with hnil | ⟨cs, c, hfront, hc⟩
  · rw [hnil]
    rfl
  · have hwords := words_append_blank hc cs []
    rw [hfront, List.append_assoc, List.singleton_append, words_append_blank hc, hwords]
    simp [words, divide]

/-- **The words of a whole**, with the runs at the seam as one word. -/
theorem words_append (a b : Text) :
    words (a ++ b) = words (front a) ++ solo (lastRun a ++ firstRun b) ++ words (back b) := by
  have hsolid : Solid (lastRun a ++ firstRun b) := by
    intro c hc
    rcases List.mem_append.mp hc with hc | hc
    · exact solid_lastRun a c hc
    · exact solid_firstRun b c hc
  have htext : a ++ b = front a ++ (lastRun a ++ firstRun b ++ back b) := by
    rw [← List.append_assoc, ← List.append_assoc, front_append_lastRun, List.append_assoc,
      firstRun_append_back]
  rw [htext, words_front_append, words_solid_append hsolid (back_cases b), List.append_assoc]

theorem words_eq_firstRun (t : Text) : words t = solo (firstRun t) ++ words (back t) :=
  words_append [] t

theorem words_eq_lastRun (t : Text) : words t = words (front t) ++ solo (lastRun t) := by
  have h := words_append t []
  rw [List.append_nil] at h
  rw [h]
  show words (front t) ++ solo (lastRun t ++ []) ++ [] = _
  rw [List.append_nil, List.append_nil]

theorem words_of_allBlank {t : Text} (h : Text.allBlank t = true) : words t = [] := by
  induction t with
  | nil => rfl
  | cons c t ih =>
      have hall := List.all_eq_true.mp h
      rw [words_blank (hall c List.mem_cons_self)]
      exact ih (List.all_eq_true.mpr fun d hd => hall d (List.mem_cons_of_mem c hd))

theorem words_append_of_allBlank (t : Text) {blanks : Text} (h : Text.allBlank blanks = true) :
    words (t ++ blanks) = words t := by
  cases blanks with
  | nil => rw [List.append_nil]
  | cons c blanks =>
      have hall := List.all_eq_true.mp h
      have hrest : Text.allBlank blanks = true :=
        List.all_eq_true.mpr fun d hd => hall d (List.mem_cons_of_mem c hd)
      rw [words_append_blank (hall c List.mem_cons_self), words_of_allBlank hrest, List.append_nil]

/-! ## Runs and pieces -/

/-- Behind a word of a division stands a blank or nothing. -/
theorem firstRun_behind {p : Piece} {ps : List Piece} (h : Parted (p :: ps)) :
    firstRun (p.gap ++ ps.flatMap fun q => q.word ++ q.gap) = [] := by
  obtain ⟨-, hgap, hseam, -⟩ := h
  cases hg : p.gap with
  | nil =>
      have hps : ps = [] := by
        by_cases hps : ps = []
        · exact hps
        · exact absurd hg (hseam hps)
      rw [hps]
      rfl
  | cons c g => exact firstRun_of_blank (hgap c (by rw [hg]; exact List.mem_cons_self)) _

theorem firstRun_of_divide {t : Text} {p : Piece} {ps : List Piece}
    (h : divide t = ⟨[], p :: ps⟩) : firstRun t = p.word := by
  have hproper := divide_proper t
  rw [h] at hproper
  have hsolid : Solid p.word := hproper.pieces.1.2
  have htext : t = p.word ++ (p.gap ++ ps.flatMap fun q => q.word ++ q.gap) := by
    rw [← text_divide t, h, Division.text, List.nil_append, List.flatMap_cons, List.append_assoc]
  rw [htext, firstRun_append, if_pos hsolid, firstRun_behind hproper.pieces, List.append_nil]

theorem lastRun_of_divide {t leading : Text} {p : Piece} {ps : List Piece}
    (h : divide t = ⟨leading, ps ++ [p]⟩) : lastRun t = if p.gap = [] then p.word else [] := by
  have hproper := divide_proper t
  rw [h] at hproper
  obtain ⟨hps, hlast, hseam⟩ := parted_append.mp hproper.pieces
  obtain ⟨hword, hgap, -, -⟩ := hlast
  have hsolid : Solid p.word := hword.2
  have htext : t = leading ++ (ps.flatMap fun q => q.word ++ q.gap) ++ p.word ++ p.gap := by
    rw [← text_divide t, h, Division.text, List.flatMap_append]
    simp
  by_cases hnil : p.gap = []
  · -- in front of the last word there is a gap or nothing
    have hbefore : lastRun (leading ++ ps.flatMap fun q => q.word ++ q.gap) = [] := by
      rcases List.eq_nil_or_concat ps with rfl | ⟨qs, q, rfl⟩
      · rw [List.flatMap_nil, List.append_nil]
        exact lastRun_of_isGap hproper.leading
      · rw [List.concat_eq_append] at hps hseam ⊢
        have hgap' : q.gap ≠ [] := by
          have hlastGap := hseam (by simp) (by simp)
          rw [lastGap_append (by simp)] at hlastGap
          exact hlastGap
        rw [List.flatMap_append, List.flatMap_singleton, ← List.append_assoc, ← List.append_assoc]
        exact lastRun_gap _ (hps.gap q (by simp)) hgap'
    rw [htext, if_pos hnil, hnil, List.append_nil, lastRun_append, if_pos hsolid, hbefore,
      List.nil_append]
  · rw [htext, if_neg hnil]
    exact lastRun_gap _ hgap hnil

theorem firstRun_eq_nil_iff (t : Text) :
    firstRun t = [] ↔ (divide t).leading ≠ [] ∨ words t = [] := by
  have hproper := divide_proper t
  unfold words
  rcases hd : divide t with ⟨_ | ⟨c, leading⟩, _ | ⟨p, ps⟩⟩
  · have hnil : t = [] := by
      rw [← text_divide t, hd]
      rfl
    simp [hnil, firstRun]
  · rw [hd] at hproper
    rw [firstRun_of_divide hd]
    simp [hproper.pieces.1.1]
  all_goals
    rw [hd] at hproper
    have hc : Text.isBlank c = true := hproper.leading c List.mem_cons_self
    rw [← text_divide t, hd]
    simp [Division.text, firstRun_of_blank hc]

theorem lastRun_eq_nil_iff (t : Text) :
    lastRun t = [] ↔ lastGap (divide t).pieces ≠ [] ∨ words t = [] := by
  have hproper := divide_proper t
  unfold words
  rcases hd : divide t with ⟨leading, ps⟩
  rw [hd] at hproper
  rcases List.eq_nil_or_concat ps with rfl | ⟨qs, q, rfl⟩
  · have htext : t = leading := by
      rw [← text_divide t, hd]
      simp [Division.text]
    simp [htext, lastRun_of_isGap hproper.leading]
  · rw [List.concat_eq_append] at hd hproper ⊢
    have hword : q.word ≠ [] := (hproper.pieces.word q (by simp)).1
    have hlastGap : lastGap (qs ++ [q]) = q.gap := lastGap_append (by simp)
    rw [lastRun_of_divide hd]
    dsimp only
    rw [hlastGap]
    by_cases hgap : q.gap = []
    · simp [hgap, hword]
    · simp [hgap]

/-! ## Rewriting a text -/

/-- The same words in another order, between the same outer blanks. -/
structure Rewritten (old new : Text) : Prop where
  words : (words new).Perm (words old)
  leading : (divide new).leading = (divide old).leading
  trailing : lastGap (divide new).pieces = lastGap (divide old).pieces

namespace Rewritten

variable {old new : Text}

theorem refl (t : Text) : Rewritten t t := ⟨.refl _, rfl, rfl⟩

theorem symm (h : Rewritten old new) : Rewritten new old :=
  ⟨h.words.symm, h.leading.symm, h.trailing.symm⟩

theorem firstRun_eq_nil (h : Rewritten old new) : firstRun new = [] ↔ firstRun old = [] := by
  rw [firstRun_eq_nil_iff, firstRun_eq_nil_iff, h.leading, ← List.length_eq_zero_iff,
    h.words.length_eq, List.length_eq_zero_iff]

theorem lastRun_eq_nil (h : Rewritten old new) : lastRun new = [] ↔ lastRun old = [] := by
  rw [lastRun_eq_nil_iff, lastRun_eq_nil_iff, h.trailing, ← List.length_eq_zero_iff,
    h.words.length_eq, List.length_eq_zero_iff]

/-- A text without blanks has nothing to rewrite. -/
theorem eq_of_solid (h : Rewritten old new) (hold : Solid old) : new = old := by
  by_cases hnil : old = []
  · subst hnil
    have hwords : ClassList.words new = [] := List.perm_nil.mp h.words
    rw [← text_divide new, Division.text, h.leading, List.map_eq_nil_iff.mp hwords]
    rfl
  · have hdivide : divide old = ⟨[], [⟨old, []⟩]⟩ := by
      have hparted : Parted [⟨old, []⟩] := ⟨⟨hnil, hold⟩, isGap_nil, by simp, trivial⟩
      have := divide_pieces hparted
      simpa using this
    have hwords := h.words
    have hleading := h.leading
    have htrailing := h.trailing
    unfold ClassList.words at hwords
    rw [hdivide] at hwords hleading htrailing
    obtain ⟨p, hpieces, hp⟩ := List.map_eq_singleton_iff.mp (List.perm_singleton.mp hwords)
    rw [hpieces] at htrailing
    have hgap : p.gap = [] := htrailing
    rw [← text_divide new, Division.text, hleading, hpieces]
    simp [hp, hgap]

theorem solid_iff (h : Rewritten old new) : Solid new ↔ Solid old := by
  constructor
  · intro hnew
    rw [h.symm.eq_of_solid hnew]
    exact hnew
  · intro hold
    rw [h.eq_of_solid hold]
    exact hold

end Rewritten

/-- **Sorting a class list rewrites it.** -/
theorem rewritten_sort (r : Ranking) (ends : FixedEnds) (value : Text) :
    Rewritten value (sort r ends value) := by
  cases hmark : Text.includes interpolationMark value with
  | true =>
      rw [sort_of_mark hmark]
      exact .refl value
  | false =>
      obtain ⟨head, free, tail, hparts⟩ := exists_partitioned ends (divide value).pieces
      have hdivide := divide_sort (r := r) hmark hparts
      refine ⟨words_sort_perm r ends value, by rw [hdivide], ?_⟩
      rw [hdivide, hparts.eq]
      dsimp only
      rw [lastGap_parts, lastGap_parts, lastGap_sortFree]
      simp only [ne_eq, sortFree_eq_nil]

/-- A text without words is in order. -/
theorem sort_of_allBlank {value : Text} (r : Ranking) (ends : FixedEnds)
    (h : Text.allBlank value = true) : sort r ends value = value := by
  have hgap : IsGap value := List.all_eq_true.mp h
  have hdivide : divide value = ⟨value, []⟩ := by
    have hproper := divide_gap hgap []
    rw [List.append_nil] at hproper
    rw [hproper]
    simp [divide]
  have hsorted := rewritten_sort r ends value
  have hwords := hsorted.words
  have hleading := hsorted.leading
  unfold words at hwords
  rw [hdivide] at hwords hleading
  have hpieces : (divide (sort r ends value)).pieces = [] :=
    List.map_eq_nil_iff.mp (List.perm_nil.mp hwords)
  rw [← text_divide (sort r ends value), Division.text, hleading, hpieces]
  simp

/-! ## Putting rewritten texts together -/

/-- **Two texts and their seam.** If they touch, neither run at the seam may change. -/
theorem words_append_perm {a b a' b' : Text} (ha : (words a').Perm (words a))
    (hb : Rewritten b b') (hends : lastRun a' = [] ↔ lastRun a = [])
    (hlast : firstRun b ≠ [] → lastRun a' = lastRun a)
    (hfirst : lastRun a ≠ [] → firstRun b' = firstRun b) :
    (words (a' ++ b')).Perm (words (a ++ b)) := by
  have hstarts := hb.firstRun_eq_nil
  by_cases htouch : lastRun a ≠ [] ∧ firstRun b ≠ []
  · -- the word at the seam is the same, and what is left of either text is permuted
    obtain ⟨hnea, hneb⟩ := htouch
    have hsame := hlast hneb
    have hsame' := hfirst hnea
    have hleft : (words (front a')).Perm (words (front a)) := by
      rw [words_eq_lastRun a', words_eq_lastRun a, hsame] at ha
      exact (List.perm_append_right_iff _).mp ha
    have hright : (words (back b')).Perm (words (back b)) := by
      have hwords := hb.words
      rw [words_eq_firstRun b', words_eq_firstRun b, hsame'] at hwords
      exact (List.perm_append_left_iff _).mp hwords
    rw [words_append, words_append, hsame, hsame']
    exact (hleft.append_right _).append hright
  · -- a blank or nothing at the seam: the words of the one, then those of the other
    have hparted : ∀ x y : Text, lastRun x = [] ∨ firstRun y = [] →
        words (x ++ y) = words x ++ words y := by
      intro x y hxy
      rw [words_append, words_eq_lastRun x, words_eq_firstRun y]
      rcases hxy with hx | hy
      · simp [hx, solo]
      · simp [hy, solo]
    have hopen : lastRun a = [] ∨ firstRun b = [] := by
      by_cases hnil : lastRun a = []
      · exact .inl hnil
      · by_cases hnil' : firstRun b = []
        · exact .inr hnil'
        · exact absurd ⟨hnil, hnil'⟩ htouch
    rw [hparted a b hopen, hparted a' b' (hopen.imp hends.mpr hstarts.mpr)]
    exact ha.append hb.words

/-- In a row of texts behind `before`, each with what becomes of it, no run changes that
touches another one. -/
def Settled : Text → List (Text × Text) → Prop
  | _, [] => True
  | before, (old, new) :: rest =>
    (lastRun before ≠ [] → firstRun new = firstRun old) ∧
      (firstRun (rest.flatMap Prod.fst) ≠ [] → lastRun new = lastRun old) ∧
      Settled (before ++ old) rest

theorem firstRun_append_ne_nil {a : Text} (h : firstRun a ≠ []) (b : Text) :
    firstRun (a ++ b) ≠ [] := by
  rw [firstRun_append]
  split
  · intro hnil
    rw [(List.append_eq_nil_iff.mp hnil).1] at h
    exact h rfl
  · exact h

theorem firstRun_ne_nil_of_solid {t : Text} (h : Solid t) (hne : t ≠ []) : firstRun t ≠ [] := by
  have hrun := firstRun_append t []
  rw [List.append_nil, if_pos h] at hrun
  rw [hrun]
  intro hnil
  exact hne (List.append_eq_nil_iff.mp hnil).1

/-- The last run of a whole is open if it was. -/
theorem lastRun_append_eq_nil {a a' b b' : Text} (hb : Rewritten b b')
    (hends : lastRun a' = [] ↔ lastRun a = []) :
    lastRun (a' ++ b') = [] ↔ lastRun (a ++ b) = [] := by
  rw [lastRun_append, lastRun_append]
  by_cases hsolid : Solid b
  · rw [if_pos (hb.solid_iff.mpr hsolid), if_pos hsolid, hb.eq_of_solid hsolid,
      List.append_eq_nil_iff, List.append_eq_nil_iff, hends]
  · rw [if_neg (fun h => hsolid (hb.solid_iff.mp h)), if_neg hsolid]
    exact hb.lastRun_eq_nil

/-- The last run of a whole is the same if the last run of the second text is, and that of the
first where it reaches through. -/
theorem lastRun_append_eq {a a' b b' : Text} (hb : Rewritten b b') (hrun : lastRun b' = lastRun b)
    (hthrough : Solid b → lastRun a' = lastRun a) : lastRun (a' ++ b') = lastRun (a ++ b) := by
  rw [lastRun_append, lastRun_append]
  by_cases hsolid : Solid b
  · rw [if_pos (hb.solid_iff.mpr hsolid), if_pos hsolid, hb.eq_of_solid hsolid, hthrough hsolid]
  · rw [if_neg (fun h => hsolid (hb.solid_iff.mp h)), if_neg hsolid, hrun]

/-- **A row of texts and its seams.** The induction carries the text in front of the row: its
words are permuted, and its last run is the same where the row touches it. -/
theorem words_joined_perm {before before' : Text} {row : List (Text × Text)}
    (hrow : ∀ p ∈ row, Rewritten p.1 p.2) (hsettled : Settled before row)
    (hwords : (words before').Perm (words before))
    (hends : lastRun before' = [] ↔ lastRun before = [])
    (hlast : firstRun (row.flatMap Prod.fst) ≠ [] → lastRun before' = lastRun before) :
    (words (before' ++ row.flatMap Prod.snd)).Perm (words (before ++ row.flatMap Prod.fst)) := by
  induction row generalizing before before' with
  | nil =>
      rw [List.flatMap_nil, List.flatMap_nil, List.append_nil, List.append_nil]
      exact hwords
  | cons p row ih =>
      obtain ⟨old, new⟩ := p
      obtain ⟨hfirst, hrun, hrest⟩ := hsettled
      obtain ⟨hthis, hrow⟩ := List.forall_mem_cons.mp hrow
      dsimp only at hthis
      rw [List.flatMap_cons] at hlast
      have htouch : firstRun old ≠ [] → lastRun before' = lastRun before :=
        fun hne => hlast (firstRun_append_ne_nil hne _)
      have hstep := words_append_perm hwords hthis hends htouch hfirst
      rw [List.flatMap_cons, List.flatMap_cons, ← List.append_assoc, ← List.append_assoc]
      refine ih hrow hrest hstep (lastRun_append_eq_nil hthis hends) ?_
      intro hne
      refine lastRun_append_eq hthis (hrun hne) ?_
      intro hsolid
      by_cases hnil : old = []
      · refine hlast ?_
        rw [hnil]
        exact hne
      · exact htouch (firstRun_ne_nil_of_solid hsolid hnil)

/-! ## Fixed ends -/

/-- With its first word fixed, a list keeps its first run. -/
theorem firstRun_sort_of_fixed {r : Ranking} {ends : FixedEnds} {value : Text}
    (hfixed : ends.first = true) : firstRun (sort r ends value) = firstRun value := by
  by_cases hne : firstRun value = []
  · rw [hne]
    exact (rewritten_sort r ends value).firstRun_eq_nil.mpr hne
  cases hmark : Text.includes interpolationMark value with
  | true => rw [sort_of_mark hmark]
  | false =>
      obtain ⟨head, free, tail, hparts⟩ := exists_partitioned ends (divide value).pieces
      have hdivide := divide_sort (r := r) hmark hparts
      have hlead : (divide value).leading = [] := by
        by_cases h : (divide value).leading = []
        · exact h
        · exact absurd ((firstRun_eq_nil_iff value).mpr (.inl h)) hne
      have hpieces : (divide value).pieces ≠ [] := by
        intro h
        refine hne ((firstRun_eq_nil_iff value).mpr (.inr ?_))
        unfold words
        rw [h]
        rfl
      -- the head is one piece, the first of both lists
      have hlen := hparts.head_length
      rw [if_pos hfixed] at hlen
      have hpos := List.length_pos_iff.mpr hpieces
      obtain ⟨p, rfl⟩ := List.length_eq_one_iff.mp (show head.length = 1 by omega)
      have hold : divide value = ⟨(divide value).leading, [p] ++ free ++ tail⟩ := by
        rw [← hparts.eq]
      rw [hlead] at hdivide hold
      rw [firstRun_of_divide hold]
      exact firstRun_of_divide hdivide

/-- With its last word fixed, a list keeps its last run. -/
theorem lastRun_sort_of_fixed {r : Ranking} {ends : FixedEnds} {value : Text}
    (hfixed : ends.last = true) : lastRun (sort r ends value) = lastRun value := by
  cases hmark : Text.includes interpolationMark value with
  | true => rw [sort_of_mark hmark]
  | false =>
      obtain ⟨head, free, tail, hparts⟩ := exists_partitioned ends (divide value).pieces
      have hdivide := divide_sort (r := r) hmark hparts
      have hlen := hparts.tail_length
      rw [if_pos hfixed] at hlen
      have hold : divide value = ⟨(divide value).leading, head ++ free ++ tail⟩ := by
        rw [← hparts.eq]
      by_cases htail : tail = []
      · -- the only piece, if there is one, is fixed as the first
        have hfree : free = [] := by
          have hall := congrArg List.length hparts.eq
          rw [htail] at hlen hall
          simp only [List.length_append, List.length_nil] at hlen hall
          exact List.length_eq_zero_iff.mp (by omega)
        have hsame : divide (sort r ends value) = divide value := by
          rw [hdivide, hfree, sortFree_eq_nil.mpr rfl, ← hfree, ← hold]
        rw [← text_divide (sort r ends value), hsame, text_divide]
      · obtain ⟨p, rfl⟩ := List.length_eq_one_iff.mp (show tail.length = 1 by
          have := List.length_pos_iff.mpr htail
          have := hparts.tail_le
          omega)
        rw [lastRun_of_divide hold, lastRun_of_divide hdivide]

end ClassSort.ClassList
