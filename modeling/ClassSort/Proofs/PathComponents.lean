import ClassSort.Path.Basic

/-!
# Paths by their components

A path has many spellings, and two spellings are the same path when their *components* agree.
So whatever walks over paths has to be read through `Path.components`. This file says what each
operation on spellings does to the components:

* a part that is put behind a path adds its component (`components_join`);
* the parent of a path has all components but the last, and only the root and what has no
  components are without one (`parent?_cases`);
* a path made absolute has the components of the current directory in front
  (`components_absolute`), so the directory of a file is known by components alone
  (`components_containing`).

Both the parent and the join cut or glue at a separator, and `splitParts_append` is what makes
that visible: at a separator, the parts of a text fall apart into those of its two sides.
-/

namespace ClassSort.Path

/-! ## Parts -/

theorem splitParts_ne_nil (cs : Text) : splitParts cs ≠ [] := by
  unfold splitParts
  split
  · simp
  · simp
  · split <;> simp

theorem splitParts_cons {c : Char} (hc : c ≠ '/') {cs p : Text} {ps : List Text}
    (h : splitParts cs = p :: ps) : splitParts (c :: cs) = (c :: p) :: ps := by
  rw [splitParts, h]
  exact hc

theorem splitParts_append (a b : Text) :
    splitParts (a ++ '/' :: b) = splitParts a ++ splitParts b := by
  induction a with
  | nil => rfl
  | cons c a ih =>
      by_cases hc : c = '/'
      · rw [hc]
        show [] :: splitParts (a ++ '/' :: b) = _
        rw [ih]
        rfl
      · obtain ⟨p, ps, hparts⟩ := List.exists_cons_of_ne_nil (splitParts_ne_nil a)
        have hrest : splitParts (a ++ '/' :: b) = p :: (ps ++ splitParts b) := by
          rw [ih, hparts]
          rfl
        rw [List.cons_append, splitParts_cons hc hrest, splitParts_cons hc hparts]
        rfl

theorem splitParts_of_notMem {part : Text} (h : '/' ∉ part) : splitParts part = [part] := by
  induction part with
  | nil => rfl
  | cons c part ih =>
      rw [List.mem_cons, not_or] at h
      exact splitParts_cons (fun heq => h.1 heq.symm) (ih h.2)

/-- The components that the parts of a text stand for. -/
def named (cs : Text) : List Component := (splitParts cs).filterMap ofPart?

theorem named_append (a b : Text) : named (a ++ '/' :: b) = named a ++ named b := by
  unfold named
  rw [splitParts_append, List.filterMap_append]

theorem named_of_notMem {part : Text} (h : '/' ∉ part) : named part = (ofPart? part).toList := by
  unfold named
  rw [splitParts_of_notMem h]
  cases hpart : ofPart? part <;> simp [hpart]

theorem ofPart?_eq_some {part : Text} {c : Component} (h : ofPart? part = some c) :
    part ≠ [] ∧ part ≠ ['.'] ∧ c.text = part ∧ c ≠ .root ∧ c ≠ .current := by
  unfold ofPart? at h
  split at h
  · exact absurd h (by simp)
  · rename_i hcounts
    simp only [Bool.or_eq_true, decide_eq_true_eq, not_or] at hcounts
    split at h
    · rename_i hup
      injection h with h
      subst h hup
      exact ⟨hcounts.1, hcounts.2, rfl, by simp, by simp⟩
    · injection h with h
      subst h
      exact ⟨hcounts.1, hcounts.2, rfl, by simp, by simp⟩

theorem ofPart?_eq_none {part : Text} (h : ofPart? part = none) : part = [] ∨ part = ['.'] := by
  unfold ofPart? at h
  split at h
  · rename_i hcounts
    simpa using hcounts
  · split at h <;> exact absurd h (by simp)

/-! ## What a path begins with -/

theorem lead_cases (path : Text) :
    (∃ cs, path = '/' :: cs ∧ lead path = ['/']) ∨
    ((path = ['.'] ∨ ∃ cs, path = '.' :: '/' :: cs) ∧ lead path = ['.']) ∨
    (lead path = [] ∧ isAbsolute path = false) := by
  unfold lead
  split
  · exact .inl ⟨_, rfl, rfl⟩
  · exact .inr (.inl ⟨.inl rfl, rfl⟩)
  · exact .inr (.inl ⟨.inr ⟨_, rfl⟩, rfl⟩)
  · rename_i hroot _ _
    refine .inr (.inr ⟨rfl, ?_⟩)
    cases path with
    | nil => rfl
    | cons c cs =>
        have hc : c ≠ '/' := fun heq => hroot cs (by rw [heq])
        simpa [isAbsolute] using hc

/-- A separator behind the first part does not change the lead. -/
theorem lead_append {d : Text} (hd : d ≠ []) (cs : Text) : lead (d ++ '/' :: cs) = lead d := by
  cases d with
  | nil => exact absurd rfl hd
  | cons c d =>
      cases d with
      | nil =>
          by_cases hroot : c = '/'
          · rw [hroot]
            rfl
          · by_cases hpoint : c = '.'
            · rw [hpoint]
              rfl
            · simp [lead, hroot, hpoint]
      | cons c' d =>
          by_cases hroot : c = '/'
          · rw [hroot]
            rfl
          · by_cases hpoint : c = '.' ∧ c' = '/'
            · rw [hpoint.1, hpoint.2]
              rfl
            · have hnone : ∀ rest, lead (c :: c' :: rest) = [] := by
                intro rest
                rcases lead_cases (c :: c' :: rest) with ⟨_, h, -⟩ | ⟨h | ⟨_, h⟩, -⟩ | ⟨h, -⟩
                · exact absurd (List.cons.inj h).1 hroot
                · exact absurd (List.cons.inj h).2 (by simp)
                · injection h with hc h
                  exact absurd ⟨hc, (List.cons.inj h).1⟩ hpoint
                · exact h
              rw [List.cons_append, List.cons_append, hnone, hnone]

theorem lead_of_notMem {part : Text} (hslash : '/' ∉ part) (hpoint : part ≠ ['.']) :
    lead part = [] := by
  rcases lead_cases part with ⟨cs, rfl, -⟩ | ⟨rfl | ⟨cs, rfl⟩, -⟩ | ⟨hlead, -⟩
  · exact absurd List.mem_cons_self hslash
  · exact absurd rfl hpoint
  · exact absurd (List.mem_cons_of_mem _ List.mem_cons_self) hslash
  · exact hlead

/-- The part that makes the lead does not count again. -/
theorem components_eq (path : Text) : components path = ofLead (lead path) ++ named path := by
  unfold components
  rcases lead_cases path with ⟨cs, rfl, hlead⟩ | ⟨rfl | ⟨cs, rfl⟩, hlead⟩ | ⟨hlead, -⟩
  · rw [hlead]
    rfl
  · rfl
  · rw [hlead]
    have hnamed : named ('.' :: '/' :: cs) = named cs := named_append ['.'] cs
    rw [hnamed]
    rfl
  · rw [hlead]
    rfl

theorem isAbsolute_iff (path : Text) :
    isAbsolute path = true ↔ ∃ cs, components path = .root :: cs := by
  rw [components_eq]
  rcases lead_cases path with ⟨cs, rfl, hlead⟩ | ⟨hpath, hlead⟩ | ⟨hlead, hrelative⟩
  · rw [hlead]
    exact ⟨fun _ => ⟨_, rfl⟩, fun _ => rfl⟩
  · rw [hlead]
    have hrelative : isAbsolute path = false := by
      rcases hpath with rfl | ⟨cs, rfl⟩ <;> rfl
    simp [hrelative, ofLead]
  · rw [hlead, hrelative]
    refine ⟨fun h => absurd h (by simp), fun ⟨cs, hcs⟩ => ?_⟩
    have hroot : Component.root ∈ named path := by
      have hmem : Component.root ∈ ofLead [] ++ named path := hcs ▸ List.mem_cons_self
      simpa [ofLead] using hmem
    obtain ⟨part, -, hpart⟩ := List.mem_filterMap.mp hroot
    exact absurd rfl (ofPart?_eq_some hpart).2.2.2.1

/-! ## Putting a part behind a path -/

theorem components_append {d part : Text} {c : Component} (hd : d ≠ []) (hslash : '/' ∉ part)
    (hc : ofPart? part = some c) : components (d ++ '/' :: part) = components d ++ [c] := by
  rw [components_eq, components_eq d, lead_append hd, named_append, named_of_notMem hslash, hc,
    List.append_assoc]
  rfl

/-- A separator at the end adds nothing. -/
theorem components_append_separator {d : Text} (hd : d ≠ []) :
    components (d ++ ['/']) = components d := by
  rw [components_eq, components_eq d, lead_append hd, named_append]
  exact congrArg _ (List.append_nil _)

theorem components_join {part : Text} {c : Component} (d : Text) (hslash : '/' ∉ part)
    (hc : ofPart? part = some c) : components (join d part) = components d ++ [c] := by
  obtain ⟨hne, hpoint, -⟩ := ofPart?_eq_some hc
  have hrelative : isAbsolute part = false := by
    cases part with
    | nil => rfl
    | cons x part =>
        have hx : x ≠ '/' := fun heq => hslash (heq ▸ List.mem_cons_self)
        simpa [isAbsolute] using hx
  unfold join
  by_cases hd : d = []
  · rw [hd, if_pos (by simp), components_eq, lead_of_notMem hslash hpoint, named_of_notMem hslash, hc]
    rfl
  · have hcond : ¬ ((isAbsolute part || d.isEmpty) = true) := by simpa [hrelative] using hd
    rw [if_neg hcond]
    split
    · rename_i hlast
      -- the separator is there already
      obtain ⟨d', rfl⟩ := List.getLast?_eq_some_iff.mp (by simpa using hlast)
      rw [List.append_assoc]
      show components (d' ++ '/' :: part) = _
      by_cases hd' : d' = []
      · rw [hd', components_eq]
        show ofLead (lead ([] ++ '/' :: part)) ++ named ([] ++ '/' :: part) = [.root] ++ [c]
        rw [named_append, named_of_notMem hslash, hc]
        rfl
      · rw [components_append_separator hd', components_append hd' hslash hc]
    · exact components_append hd hslash hc

/-! ## Parents -/

/-- The part that a text begins with, and what is behind its separator. -/
theorem first_part (cs : Text) :
    '/' ∉ cs.takeWhile (· != '/') ∧
      (cs = cs.takeWhile (· != '/') ∧ (cs.dropWhile (· != '/')).drop 1 = [] ∨
        cs = cs.takeWhile (· != '/') ++ '/' :: (cs.dropWhile (· != '/')).drop 1) := by
  refine ⟨fun hmem => ?_, ?_⟩
  · have hall := List.all_eq_true.mp (List.all_takeWhile (p := (· != '/')) (l := cs)) '/' hmem
    exact absurd hall (by simp)
  · have hsplit : cs = cs.takeWhile (· != '/') ++ cs.dropWhile (· != '/') :=
      List.takeWhile_append_dropWhile.symm
    cases hrest : cs.dropWhile (· != '/') with
    | nil =>
        rw [hrest, List.append_nil] at hsplit
        exact .inl ⟨hsplit, rfl⟩
    | cons x rest =>
        have hx : (cs.dropWhile (· != '/')).head? = some x := by rw [hrest]; rfl
        have hslash := List.head?_dropWhile_not (· != '/') cs
        rw [hx] at hslash
        have heq : x = '/' := by simpa using hslash
        rw [hrest, heq] at hsplit
        exact .inr hsplit

/-- What is left of a text that is written backwards when the parts at its front that do not
count have been dropped. -/
structure Trimmed (cs rest : Text) : Prop where
  named_eq : named rest.reverse = named cs.reverse
  /-- The cut is at a separator. -/
  cut : rest = cs ∨ rest = [] ∨ ∃ dropped, cs = dropped ++ '/' :: rest
  counts : rest = [] ∨ ∃ c, ofPart? (rest.takeWhile (· != '/')).reverse = some c

theorem trimmed_trimBack : ∀ (fuel : Nat) (cs : Text), cs.length ≤ fuel →
    Trimmed cs (trimBack fuel cs)
  | 0, cs, h => by
      have hnil : cs = [] := List.length_eq_zero_iff.mp (Nat.le_zero.mp h)
      subst hnil
      exact ⟨rfl, .inl rfl, .inl rfl⟩
  | fuel + 1, cs, h => by
      obtain ⟨hpart, hsplit⟩ := first_part cs
      rw [trimBack]
      split
      · rename_i hstop
        refine ⟨rfl, .inl rfl, ?_⟩
        by_cases hnil : cs = []
        · exact .inl hnil
        · right
          cases hcounts : ofPart? (cs.takeWhile (· != '/')).reverse with
          | some c => exact ⟨c, rfl⟩
          | none =>
              exfalso
              rcases ofPart?_eq_none hcounts with hback | hback
              · rw [List.reverse_eq_nil_iff] at hback
                simp [hnil, hback] at hstop
              · have hpoint : cs.takeWhile (· != '/') = ['.'] := by
                  rw [← List.reverse_reverse (cs.takeWhile _), hback]
                  rfl
                simp [hnil, hpoint] at hstop
      · rename_i hgo
        -- the part at the front is empty or a point, so its reverse does not count either
        have hnone : named (cs.takeWhile (· != '/')).reverse = [] := by
          by_cases hempty : cs.takeWhile (· != '/') = []
          · rw [hempty]
            rfl
          · by_cases hpoint : cs.takeWhile (· != '/') = ['.']
            · rw [hpoint]
              rfl
            · simp [hempty, hpoint] at hgo
        rcases hsplit with ⟨hall, hrest⟩ | hsplit
        · rw [hrest]
          have ih := trimmed_trimBack fuel [] (Nat.zero_le _)
          have hnil : trimBack fuel [] = [] := by cases fuel <;> rfl
          rw [hnil]
          refine ⟨?_, .inr (.inl rfl), .inl rfl⟩
          rw [hall, hnone]
          rfl
        · generalize hrest : (cs.dropWhile (· != '/')).drop 1 = rest at hsplit ⊢
          have hlen : rest.length ≤ fuel := by
            have hcount := congrArg List.length hsplit
            rw [List.length_append, List.length_cons] at hcount
            omega
          have ih := trimmed_trimBack fuel rest hlen
          refine ⟨?_, ?_, ih.counts⟩
          · rw [ih.named_eq, hsplit, List.reverse_append, List.reverse_cons, List.append_assoc]
            show _ = named (rest.reverse ++ '/' :: (cs.takeWhile (· != '/')).reverse)
            rw [named_append, hnone, List.append_nil]
          · rcases ih.cut with heq | hnil | ⟨dropped, heq⟩
            · rw [heq]
              exact .inr (.inr ⟨_, hsplit⟩)
            · exact .inr (.inl hnil)
            · refine .inr (.inr ⟨cs.takeWhile (· != '/') ++ '/' :: dropped, ?_⟩)
              rw [List.append_assoc, List.cons_append, ← heq]
              exact hsplit

/-- The first text is cut off from the second at a separator, or nothing is left of it. -/
def Front (a b : Text) : Prop := a = [] ∨ ∃ after, b = a ++ '/' :: after

theorem Front.trans {a b c : Text} (hab : Front a b) (hbc : Front b c) : Front a c := by
  rcases hab with hnil | ⟨after, rfl⟩
  · exact .inl hnil
  · rcases hbc with hnil | ⟨after', rfl⟩
    · exact absurd hnil (by simp)
    · exact .inr ⟨after ++ '/' :: after', by rw [List.append_assoc]; rfl⟩

theorem Trimmed.front {cs rest : Text} (h : Trimmed cs rest) :
    rest.reverse = cs.reverse ∨ Front rest.reverse cs.reverse := by
  rcases h.cut with heq | hnil | ⟨dropped, heq⟩
  · exact .inl (by rw [heq])
  · exact .inr (.inl (by rw [hnil]; rfl))
  · refine .inr (.inr ⟨dropped.reverse, ?_⟩)
    rw [heq, List.reverse_append, List.reverse_cons, List.append_assoc]
    rfl

/-- The part at the end of a text that is written backwards, and what stands in front of it. -/
theorem named_reverse {cs : Text} {c : Component}
    (hc : ofPart? (cs.takeWhile (· != '/')).reverse = some c) :
    named cs.reverse = named ((cs.dropWhile (· != '/')).drop 1).reverse ++ [c] ∧
      Front ((cs.dropWhile (· != '/')).drop 1).reverse cs.reverse := by
  obtain ⟨hslash, hsplit⟩ := first_part cs
  have hpart : named (cs.takeWhile (· != '/')).reverse = [c] := by
    rw [named_of_notMem (by simpa using hslash), hc]
    rfl
  rcases hsplit with ⟨hall, hrest⟩ | hsplit
  · refine ⟨?_, .inl (by rw [hrest]; rfl)⟩
    rw [hrest, hall, hpart]
    rfl
  · have hback : cs.reverse = ((cs.dropWhile (· != '/')).drop 1).reverse ++
        '/' :: (cs.takeWhile (· != '/')).reverse := by
      conv => lhs; rw [hsplit]
      rw [List.reverse_append, List.reverse_cons, List.append_assoc]
      rfl
    refine ⟨?_, .inr ⟨_, hback⟩⟩
    rw [hback, named_append, hpart]

/-- What a path begins with stays when the path is cut off at a separator. -/
theorem components_cut {path kept : Text}
    (h : Front kept (path.drop (lead path).length)) :
    components (lead path ++ kept) = ofLead (lead path) ++ named kept := by
  have hlead : lead (lead path ++ kept) = lead path := by
    rcases lead_cases path with ⟨cs, -, hlead⟩ | ⟨hpath, hlead⟩ | ⟨hlead, -⟩
    · rw [hlead]
      rfl
    · rw [hlead] at h ⊢
      rcases h with rfl | ⟨after, hcut⟩
      · rfl
      · rcases hpath with rfl | ⟨cs, rfl⟩
        · exact absurd hcut (by simp)
        · cases kept with
          | nil => rfl
          | cons x kept =>
              have hx : '/' = x := (List.cons.inj hcut).1
              rw [← hx]
              rfl
    · rw [hlead] at h ⊢
      by_cases hkept : kept = []
      · rw [hkept]
        rfl
      · rcases h with hnil | ⟨after, hcut⟩
        · exact absurd hnil hkept
        · have hsame := lead_append hkept after
          rw [← hcut] at hsame
          exact hsame.symm.trans hlead
  show ofLead (lead _) ++ named _ = _
  rw [hlead, List.drop_left]

/-- **The parent has all components but the last.** Only the root and a path without components
have no parent. -/
theorem parent?_cases (path : Text) :
    (parent? path = none ∧ (components path = [] ∨ components path = [.root])) ∨
      ∃ p c, parent? path = some p ∧ components path = components p ++ [c] ∧ c ≠ .root := by
  have hcomponents : components path =
      ofLead (lead path) ++ named (path.drop (lead path).length) := rfl
  have htrim := trimmed_trimBack _ _ (Nat.le_refl (path.drop (lead path).length).reverse.length)
  have hnamed := htrim.named_eq
  rw [List.reverse_reverse] at hnamed
  rw [hcomponents, ← hnamed]
  unfold parent?
  dsimp only
  cases hrest : trimBack (path.drop (lead path).length).reverse.length
      (path.drop (lead path).length).reverse with
  | nil =>
      rcases lead_cases path with ⟨cs, -, hlead⟩ | ⟨-, hlead⟩ | ⟨hlead, -⟩
      · rw [hlead]
        exact .inl ⟨rfl, .inr rfl⟩
      · rw [hlead]
        exact .inr ⟨[], .current, rfl, rfl, by simp⟩
      · rw [hlead]
        exact .inl ⟨rfl, .inl rfl⟩
  | cons x xs =>
      rw [hrest] at htrim
      obtain hnil | ⟨c, hc⟩ := htrim.counts
      · exact absurd hnil (by simp)
      · obtain ⟨hlast, hfront⟩ := named_reverse hc
        dsimp only
        generalize ((x :: xs).dropWhile (· != '/')).drop 1 = rest at hlast hfront ⊢
        have htrim' := trimmed_trimBack rest.length rest (Nat.le_refl _)
        -- three cuts, one inside the other
        have hkept : Front (trimBack rest.length rest).reverse (x :: xs).reverse := by
          rcases htrim'.front with heq | hcut
          · rw [heq]
            exact hfront
          · exact hcut.trans hfront
        have hbody : Front (trimBack rest.length rest).reverse (path.drop (lead path).length) := by
          have hcut := htrim.front
          rw [List.reverse_reverse] at hcut
          rcases hcut with heq | hcut
          · rw [← heq]
            exact hkept
          · exact hkept.trans hcut
        refine .inr ⟨_, c, rfl, ?_, (ofPart?_eq_some hc).2.2.2.1⟩
        rw [hlast, components_cut hbody, htrim'.named_eq, List.append_assoc]

theorem append_ne_root {cs : List Component} {c : Component} (hc : c ≠ .root) :
    cs ++ [c] ≠ [.root] := by
  intro heq
  rcases List.append_eq_singleton_iff.mp heq with ⟨-, hlast⟩ | ⟨-, hlast⟩
  · exact hc (List.cons.inj hlast).1
  · exact absurd hlast (by simp)

/-- At most `count` lists: some components, all but the last of them, and so on to the root. -/
def upward : Nat → List Component → List (List Component)
  | 0, _ => []
  | count + 1, cs => cs :: if cs = [] ∨ cs = [.root] then [] else upward count cs.dropLast

/-- The search upwards sees a directory through its components only. -/
theorem map_components_ancestors (count : Nat) (path : Text) :
    (ancestors count path).map components = upward count (components path) := by
  induction count generalizing path with
  | zero => rfl
  | succ count ih =>
      rw [ancestors, upward, List.map_cons]
      rcases parent?_cases path with ⟨hparent, htop⟩ | ⟨p, c, hparent, hlast, hc⟩
      · rw [hparent, if_pos htop]
        rfl
      · have hdeep : ¬ (components path = [] ∨ components path = [.root]) := by
          rw [hlast]
          rintro (hnil | hroot)
          · exact absurd hnil (by simp)
          · exact append_ne_root hc hroot
        rw [hparent, if_neg hdeep, hlast, List.dropLast_concat, ← ih p]
        rfl

/-! ## Absolute paths -/

/-- The components seen from the root, those of the current directory being given. -/
def fromRoot (current cs : List Component) : List Component :=
  if cs.head? = some .root then cs else current ++ cs.filter (· != .current)

theorem notMem_of_mem_splitParts {cs part : Text} (h : part ∈ splitParts cs) : '/' ∉ part := by
  induction cs generalizing part with
  | nil =>
      rw [List.mem_singleton.mp h]
      simp
  | cons c cs ih =>
      by_cases hc : c = '/'
      · rw [hc] at h
        rcases List.mem_cons.mp h with rfl | h
        · simp
        · exact ih h
      · obtain ⟨p, ps, hparts⟩ := List.exists_cons_of_ne_nil (splitParts_ne_nil cs)
        rw [splitParts_cons hc hparts] at h
        rw [hparts] at ih
        rcases List.mem_cons.mp h with rfl | h
        · rw [List.mem_cons, not_or]
          exact ⟨fun heq => hc heq.symm, ih List.mem_cons_self⟩
        · exact ih (List.mem_cons_of_mem p h)

/-- A component that is the one of its own text. -/
def Component.IsPart (c : Component) : Prop := '/' ∉ c.text ∧ ofPart? c.text = some c

/-- A text that names a file or directory. -/
def IsName (n : Text) : Prop := '/' ∉ n ∧ ofPart? n = some (.name n)

theorem isPart_of_mem_named {cs : Text} {c : Component} (h : c ∈ named cs) : c.IsPart := by
  obtain ⟨part, hpart, hc⟩ := List.mem_filterMap.mp h
  obtain ⟨-, -, htext, -⟩ := ofPart?_eq_some hc
  unfold Component.IsPart
  rw [htext]
  exact ⟨notMem_of_mem_splitParts hpart, hc⟩

theorem components_joinAll (d : Text) {cs : List Component} (h : ∀ c ∈ cs, c.IsPart) :
    components (joinAll d cs) = components d ++ cs := by
  induction cs generalizing d with
  | nil => exact (List.append_nil _).symm
  | cons c cs ih =>
      obtain ⟨hc, hcs⟩ := List.forall_mem_cons.mp h
      show components (joinAll (join d c.text) cs) = _
      rw [ih _ hcs, components_join d hc.1 hc.2, List.append_assoc]
      rfl

/-- The components of a path are those of its parts, behind the root or a point. -/
theorem components_cases (path : Text) :
    (isAbsolute path = true ∧ components path = .root :: named path) ∨
      (isAbsolute path = false ∧ (components path).filter (· != .current) = named path ∧
        (components path).head? ≠ some .root) := by
  have hkeep : (named path).filter (· != .current) = named path := by
    rw [List.filter_eq_self]
    intro c hc
    have hcurrent := (ofPart?_eq_some (isPart_of_mem_named hc).2).2.2.2.2
    simpa using hcurrent
  have habsolute := isAbsolute_iff path
  rw [components_eq] at habsolute ⊢
  rcases lead_cases path with ⟨cs, hpath, hlead⟩ | ⟨hpath, hlead⟩ | ⟨hlead, hrelative⟩
  · rw [hlead]
    exact .inl ⟨by rw [hpath]; rfl, rfl⟩
  · have hrelative : isAbsolute path = false := by
      rcases hpath with rfl | ⟨cs, rfl⟩ <;> rfl
    rw [hlead]
    exact .inr ⟨hrelative, hkeep, by simp [ofLead]⟩
  · rw [hlead] at habsolute ⊢
    refine .inr ⟨hrelative, hkeep, fun hhead => ?_⟩
    obtain ⟨cs, hcs⟩ := List.head?_eq_some_iff.mp hhead
    rw [habsolute.mpr ⟨cs, hcs⟩] at hrelative
    exact absurd hrelative (by simp)

theorem components_absolute {current : Text} (hcurrent : isAbsolute current = true) (path : Text) :
    components (absolute current path) = fromRoot (components current) (components path) := by
  obtain ⟨rest, hrest⟩ := (isAbsolute_iff current).mp hcurrent
  have hparts : ∀ c ∈ named path, c.IsPart := fun c => isPart_of_mem_named
  -- a separator at the end is kept, but does not count
  have hend : ∀ base : Text, components base = fromRoot (components current) (components path) →
      components (if path.getLast? == some '/' && base.getLast? != some '/' then base ++ ['/']
        else base) = fromRoot (components current) (components path) := by
    intro base hbase
    split
    · rw [components_append_separator ?_, hbase]
      rintro rfl
      have hnil : fromRoot (components current) (components path) = [] := hbase.symm
      unfold fromRoot at hnil
      split at hnil
      · rename_i hhead
        rw [hnil] at hhead
        exact absurd hhead (by simp)
      · rw [hrest] at hnil
        exact absurd hnil (by simp)
    · exact hbase
  unfold absolute
  apply hend
  rcases components_cases path with ⟨habsolute, hpath⟩ | ⟨hrelative, hfilter, hhead⟩
  · have hroot : fromRoot (components current) (components path) = [.root] ++ named path := by
      rw [hpath]
      exact if_pos rfl
    rw [hroot, hpath]
    by_cases htwo : ("//".toList.isPrefixOf path && !"///".toList.isPrefixOf path) = true
    · rw [if_pos htwo]
      exact components_joinAll _ hparts
    · rw [if_neg htwo, if_pos habsolute]
      exact components_joinAll ['/'] hparts
  · have htwo : ¬ (("//".toList.isPrefixOf path && !"///".toList.isPrefixOf path) = true) := by
      cases path with
      | nil => simp
      | cons c path =>
          have hc : c ≠ '/' := by simpa [isAbsolute] using hrelative
          simp [Ne.symm hc]
    rw [if_neg htwo, if_neg (by simp [hrelative]), hfilter, components_joinAll _ hparts]
    unfold fromRoot
    rw [if_neg hhead, hfilter]

/-- **The directory of a file has the components in front of the name of the file.** -/
theorem components_containing {current path : Text} (hcurrent : isAbsolute current = true)
    {front : List Component} {n : Text} (hpath : components path = front ++ [.name n]) :
    components (containing current path) = fromRoot (components current) front := by
  have hhere : components (absolute current ['.']) = fromRoot (components current) [] :=
    components_absolute hcurrent ['.']
  rcases parent?_cases path with ⟨-, hnil | hroot⟩ | ⟨p, c, hparent, hlast, -⟩
  · rw [hpath] at hnil
    exact absurd hnil (by simp)
  · rw [hpath] at hroot
    exact absurd hroot (append_ne_root (by simp))
  · have hfront : components p = front := by
      rw [hpath] at hlast
      exact (List.append_inj_left' hlast rfl).symm
    unfold containing
    rw [hparent, ← hfront]
    cases p with
    | nil => exact hhere
    | cons x p => exact components_absolute hcurrent (x :: p)

end ClassSort.Path
