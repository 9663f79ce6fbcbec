import ClassSort.Proofs.Conservation

/-!
# Where at-keywords stand

Sorting a stylesheet asks little of the at-keywords in it. Each is written where it is said to be,
it is an `@` with a name, and they stand one behind the other (`KeywordsIn`). What is proved about
the class lists of rules is proved for any such list of keywords, and then holds of those that the
scanner finds.

The scanner looks ahead, so a part of a text is read with the rest of it in view
(`Scanner.past`). Only one fact about its steps is needed here: a keyword begins with an `@` and
goes on with the characters of a name (`step_eq_keyword`).
-/

namespace ClassSort.Stylesheet

/-- At-keywords of a source: an `@` and a name at each range, one behind the other. -/
structure KeywordsIn (source : Text) (ks : List AtKeyword) : Prop where
  written : ∀ k ∈ ks, Text.slice? source k.span = some k.text
  named : ∀ k ∈ ks, ∃ name : Text, k.text = '@' :: name ∧ ∀ c ∈ name, isKeywordChar c = true
  ordered : ks.Pairwise fun k k' => k.span.stop ≤ k'.span.start

namespace KeywordsIn

variable {source : Text} {ks : List AtKeyword} {k : AtKeyword}

theorem start_lt_stop (h : KeywordsIn source ks) (hk : k ∈ ks) : k.span.start < k.span.stop := by
  obtain ⟨name, hname, -⟩ := h.named k hk
  have hstop := (Text.bounds_of_slice? (h.written k hk)).1
  have hpos : 0 < Text.size k.text := Text.size_pos (by simp [hname])
  omega

theorem exists_split (h : KeywordsIn source ks) (hk : k ∈ ks) :
    ∃ u v, source = u ++ (k.text ++ v) ∧ Text.size u = k.span.start ∧
      k.span.start + Text.size k.text = k.span.stop := by
  obtain ⟨u, v, hsource, hstart, hstop⟩ := Text.slice?_eq_some.mp (h.written k hk)
  exact ⟨u, v, by rw [hsource, List.append_assoc], hstart, hstop⟩

theorem sublist {ks' : List AtKeyword} (h : KeywordsIn source ks) (hsub : ks'.Sublist ks) :
    KeywordsIn source ks' :=
  ⟨fun k hk => h.written k (hsub.mem hk), fun k hk => h.named k (hsub.mem hk),
    h.ordered.sublist hsub⟩

/-- No keyword begins in a part without an `@`. -/
theorem le_start_of_notMem (h : KeywordsIn source ks) (hk : k ∈ ks) {a m b : Text}
    (hsource : source = a ++ (m ++ b)) (hm : '@' ∉ m) (hle : Text.size a ≤ k.span.start) :
    Text.size (a ++ m) ≤ k.span.start := by
  obtain ⟨u, v, hsplit, hstart, -⟩ := h.exists_split hk
  obtain ⟨name, hname, -⟩ := h.named k hk
  obtain ⟨z, rfl, hz⟩ := Edit.append_after (hsource.symm.trans hsplit) (by omega)
  refine Nat.le_of_not_lt fun hlt => hm ?_
  rw [← hstart, Text.size_append, Text.size_append] at hlt
  -- the rest of the part begins with the `@`
  obtain ⟨z', rfl, hz'⟩ := Edit.append_after hz.symm (by omega)
  cases z' with
  | nil =>
      rw [List.append_nil] at hlt
      exact absurd hlt (Nat.lt_irrefl _)
  | cons c z' =>
      rw [hname] at hz'
      injection hz' with hc
      simp [← hc]

/-- A keyword that ends behind a character that cannot stand in it begins behind it too. -/
theorem le_start_of_le_stop (h : KeywordsIn source ks) (hk : k ∈ ks) {a b : Text} {c : Char}
    (hsource : source = (a ++ [c]) ++ b) (hat : c ≠ '@') (hc : isKeywordChar c = false)
    (hle : Text.size (a ++ [c]) ≤ k.span.stop) : Text.size (a ++ [c]) ≤ k.span.start := by
  obtain ⟨u, v, hsplit, hstart, hstop⟩ := h.exists_split hk
  obtain ⟨name, hname, hchars⟩ := h.named k hk
  refine Nat.le_of_not_lt fun hlt => ?_
  obtain ⟨m, hm, hrest⟩ := Edit.append_after (hsplit.symm.trans hsource) (by omega)
  rw [hm, Text.size_append] at hle hlt
  have hmem : c ∈ m := by
    have hne : m ≠ [] := by
      rintro rfl
      rw [Text.size_nil] at hlt
      omega
    have hlast := congrArg List.getLast? hm
    rw [List.getLast?_concat, List.getLast?_append, List.getLast?_eq_some_getLast hne,
      Option.some_or] at hlast
    exact Option.some.inj hlast ▸ List.getLast_mem hne
  obtain ⟨m', hm', -⟩ := Edit.append_after hrest.symm (by omega)
  have htext : c ∈ '@' :: name := by
    rw [← hname, hm']
    exact List.mem_append_left m' hmem
  rcases List.mem_cons.mp htext with heq | hin
  · exact hat heq
  · rw [hchars c hin] at hc
    exact absurd hc (by simp)

end KeywordsIn

namespace Scanner

/-- The scanner behind a text, in front of `rest`. -/
def past (s : Scanner) (pos : Nat) : Text → Text → Scanner
  | [], _ => s
  | c :: cs, rest => (s.step pos c (cs ++ rest)).past (pos + c.utf8Size) cs rest

/-- The at-keywords that end in a text, in front of `rest`. -/
def found (s : Scanner) (pos : Nat) : Text → Text → List AtKeyword
  | [], _ => []
  | c :: cs, rest =>
    (s.completedBy? pos c).toList ++
      (s.step pos c (cs ++ rest)).found (pos + c.utf8Size) cs rest

theorem mode_pass (s : Scanner) (c : Char) (rest : Text) :
    ∃ fresh, (s.pass c rest).mode = .code fresh := by
  unfold pass
  split
  · exact ⟨_, rfl⟩
  · split
    · exact ⟨_, rfl⟩
    · split
      · exact ⟨_, rfl⟩
      · exact ⟨_, rfl⟩

theorem stepCode_eq_keyword {s : Scanner} {fresh : Bool} {pos start : Nat} {c : Char}
    {rest text : Text} (h : (s.stepCode fresh pos c rest).mode = .keyword start text) :
    c = '@' ∧ start = pos ∧ text = ['@'] := by
  obtain ⟨fresh', hpass⟩ := s.mode_pass c rest
  unfold stepCode at h
  grind

/-- **A keyword begins with an `@` or goes on with a character of a name.** -/
theorem step_eq_keyword {s : Scanner} {pos start : Nat} {c : Char} {rest text : Text}
    (h : (s.step pos c rest).mode = .keyword start text) :
    (c = '@' ∧ start = pos ∧ text = ['@']) ∨
      isKeywordChar c = true ∧ ∃ t, s.mode = .keyword start t ∧ text = c :: t := by
  obtain ⟨mode, depth, position⟩ := s
  unfold step at h
  cases mode with
  | code fresh => exact .inl (stepCode_eq_keyword h)
  | keyword start' t =>
      dsimp only at h
      split at h
      · rename_i hc
        injection h with hstart htext
        exact .inr ⟨hc, t, by rw [hstart], htext.symm⟩
      · exact .inl (stepCode_eq_keyword h)
  | word =>
      dsimp only at h
      split at h
      · cases h
      · split at h
        · exact .inl (stepCode_eq_keyword h)
        · cases h
  | slash inWord =>
      dsimp only at h
      split at h
      · cases h
      · split at h
        · cases h
        · split at h
          · cases h
          · exact .inl (stepCode_eq_keyword h)
  | _ =>
      dsimp only at h
      grind

/-- A keyword that the scanner is in was read as one. -/
theorem exists_of_past_eq_keyword {x y : Text} : ∀ {s : Scanner} {pos start : Nat} {text : Text},
    (s.past pos x y).mode = .keyword start text →
    (∃ u name, x = u ++ '@' :: name ∧ pos + Text.size u = start ∧ text.reverse = '@' :: name ∧
      ∀ c ∈ name, isKeywordChar c = true) ∨
    ∃ t, s.mode = .keyword start t ∧ text.reverse = t.reverse ++ x ∧
      ∀ c ∈ x, isKeywordChar c = true := by
  induction x with
  | nil =>
      intro s pos start text h
      exact .inr ⟨text, h, by simp, by simp⟩
  | cons c x ih =>
      intro s pos start text h
      rcases ih h with ⟨u, name, rfl, hstart, htext, hname⟩ | ⟨t, hmode, htext, hx⟩
      · refine .inl ⟨c :: u, name, rfl, ?_, htext, hname⟩
        rw [Text.size_cons]
        omega
      · rcases step_eq_keyword hmode with ⟨rfl, rfl, rfl⟩ | ⟨hc, t', hmode', rfl⟩
        · exact .inl ⟨[], x, rfl, rfl, by simpa using htext, hx⟩
        · refine .inr ⟨t', hmode', by simpa using htext, fun d hd => ?_⟩
          rcases List.mem_cons.mp hd with rfl | hd
          · exact hc
          · exact hx d hd

theorem completed?_eq_some {s : Scanner} {pos : Nat} {k : AtKeyword} :
    s.completed? pos = some k ↔
      s.mode = .keyword k.span.start k.text.reverse ∧ k.span.stop = pos := by
  obtain ⟨mode, depth, position⟩ := s
  obtain ⟨text, start, stop⟩ := k
  cases mode <;> grind [completed?]

/-- Where a keyword is found, the scanner is in it, and it does not go on. -/
theorem exists_of_mem_scan {cs : Text} {k : AtKeyword} : ∀ {s : Scanner} {pos : Nat},
    k ∈ s.scan pos cs →
    ∃ x y, cs = x ++ y ∧ pos + Text.size x = k.span.stop ∧
      (s.past pos x y).mode = .keyword k.span.start k.text.reverse ∧
      ∀ c ∈ y.head?, isKeywordChar c = false := by
  induction cs with
  | nil =>
      intro s pos hk
      obtain ⟨hmode, hstop⟩ := completed?_eq_some.mp (Option.mem_toList.mp hk)
      exact ⟨[], [], rfl, hstop.symm, hmode, by simp⟩
  | cons c cs ih =>
      intro s pos hk
      rcases List.mem_append.mp hk with hk | hk
      · have hsome := Option.mem_toList.mp hk
        unfold completedBy? at hsome
        split at hsome
        · cases hsome
        · rename_i hc
          obtain ⟨hmode, hstop⟩ := completed?_eq_some.mp hsome
          exact ⟨[], c :: cs, rfl, hstop.symm, hmode, by simpa using hc⟩
      · obtain ⟨x, y, rfl, hstop, hmode, hnext⟩ := ih hk
        refine ⟨c :: x, y, rfl, ?_, hmode, hnext⟩
        rw [Text.size_cons]
        omega

/-! ## Order -/

/-- An at-keyword that is being read began between two offsets. -/
def BeganIn (lo hi : Nat) (s : Scanner) : Prop :=
  ∀ start text, s.mode = .keyword start text → lo ≤ start ∧ start < hi

/-- One character ends a keyword, and the next begins behind it, or it does not. -/
theorem beganIn_step {s : Scanner} {lo pos hi : Nat} (c : Char) (rest : Text)
    (hs : s.BeganIn lo pos) (hlo : lo ≤ pos) (hpos : pos < hi) :
    (∃ k, s.completedBy? pos c = some k ∧ lo ≤ k.span.start ∧ k.span.start < pos ∧
      k.span.stop = pos ∧ (s.step pos c rest).BeganIn pos hi) ∨
    s.completedBy? pos c = none ∧ (s.step pos c rest).BeganIn lo hi := by
  by_cases hc : isKeywordChar c = true
  · refine .inr ⟨if_pos hc, fun start text hmode => ?_⟩
    rcases step_eq_keyword hmode with ⟨rfl, rfl, rfl⟩ | ⟨-, t, hmode', -⟩
    · omega
    · have := hs start t hmode'
      omega
  · -- a keyword behind this character begins with it
    have hbegins : (s.step pos c rest).BeganIn pos hi := by
      intro start text hmode
      rcases step_eq_keyword hmode with ⟨rfl, rfl, rfl⟩ | ⟨hc', -⟩
      · omega
      · exact absurd hc' hc
    have hcompleted : s.completedBy? pos c = s.completed? pos := if_neg hc
    rw [hcompleted]
    cases hk : s.completed? pos with
    | none =>
        refine .inr ⟨rfl, fun start text hmode => ?_⟩
        have := hbegins start text hmode
        omega
    | some k =>
        obtain ⟨hmode, hstop⟩ := completed?_eq_some.mp hk
        obtain ⟨hstart, hforward⟩ := hs _ _ hmode
        exact .inl ⟨k, rfl, hstart, hforward, hstop, hbegins⟩

/-- At-keywords follow each other. -/
theorem pairwise_scan (cs : Text) : ∀ {s : Scanner} {lo pos : Nat}, s.BeganIn lo pos → lo ≤ pos →
    (∀ k ∈ s.scan pos cs, lo ≤ k.span.start ∧ k.span.start < k.span.stop) ∧
      (s.scan pos cs).Pairwise fun k k' => k.span.stop ≤ k'.span.start := by
  induction cs with
  | nil =>
      intro s lo pos hs hlo
      rw [scan]
      cases hk : s.completed? pos with
      | none => exact ⟨by simp, .nil⟩
      | some k =>
          obtain ⟨hmode, rfl⟩ := completed?_eq_some.mp hk
          simpa using hs _ _ hmode
  | cons c cs ih =>
      intro s lo pos hs hlo
      have hpos : pos < pos + c.utf8Size := Nat.lt_add_of_pos_right c.utf8Size_pos
      rw [scan]
      rcases beganIn_step c cs hs hlo hpos with
        ⟨k, hk, hstart, hforward, hstop, hstep⟩ | ⟨hk, hstep⟩
      · obtain ⟨hrest, hpairs⟩ := ih hstep (Nat.le_of_lt hpos)
        rw [hk]
        refine ⟨fun k' hk' => ?_, .cons (fun k' hk' => ?_) hpairs⟩
        · rcases List.mem_cons.mp hk' with rfl | hk'
          · omega
          · have := hrest k' hk'
            omega
        · have := hrest k' hk'
          omega
      · rw [hk]
        exact ih hstep (by omega)

end Scanner

/-- **What the scanner finds are at-keywords of the source.** -/
theorem keywordsIn_atKeywords (source : Text) : KeywordsIn source (atKeywords source) := by
  have hread : ∀ k ∈ atKeywords source, ∃ u name y, source = u ++ k.text ++ y ∧
      Text.size u = k.span.start ∧ Text.size u + Text.size k.text = k.span.stop ∧
      k.text = '@' :: name ∧ ∀ c ∈ name, isKeywordChar c = true := by
    intro k hk
    obtain ⟨x, y, hsource, hstop, hmode, -⟩ := Scanner.exists_of_mem_scan hk
    rcases Scanner.exists_of_past_eq_keyword hmode with
      ⟨u, name, rfl, hstart, htext, hname⟩ | ⟨t, hmode', -⟩
    · rw [List.reverse_reverse] at htext
      rw [Nat.zero_add] at hstart hstop
      rw [Text.size_append] at hstop
      exact ⟨u, name, y, by simp [hsource, htext], hstart, by rw [htext]; exact hstop, htext, hname⟩
    · cases hmode'
  refine ⟨fun k hk => ?_, fun k hk => ?_, ?_⟩
  · obtain ⟨u, name, y, hsource, hstart, hstop, -⟩ := hread k hk
    exact Text.slice?_eq_some.mpr ⟨u, y, hsource, hstart, by rw [← hstart]; exact hstop⟩
  · obtain ⟨u, name, y, -, -, -, htext, hname⟩ := hread k hk
    exact ⟨name, htext, hname⟩
  · have hstart : Scanner.BeganIn 0 0 {} := by
      intro start text hmode
      cases hmode
    exact (Scanner.pairwise_scan source hstart (Nat.le_refl 0)).2

end ClassSort.Stylesheet
