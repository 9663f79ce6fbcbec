import ClassSort.FileSystem.Basic
import ClassSort.Proofs.PathComponents

/-!
# Plain paths

Most paths from the root have one spelling: a separator, and the parts with one separator
between each two. Such *plain* paths are known by their components (`Plain.eq_of_components`).
The directory of a file is spelled plainly, whatever spelling of the file it is taken from
(`plain_containing`), with one exception: exactly two separators at the beginning of a path
are kept. Going up from a plain path, and down to a file in it, keeps it plain.
-/

namespace ClassSort

namespace Path

/-- The root, or a plain path with one more part. -/
inductive Plain : Text → Prop where
  | root : Plain ['/']
  | join {d part : Text} {c : Component} (h : Plain d) (hslash : '/' ∉ part)
      (hc : ofPart? part = some c) : Plain (join d part)

theorem Plain.head {d : Text} (h : Plain d) : ∃ body, d = '/' :: body := by
  induction h with
  | root => exact ⟨[], rfl⟩
  | join hd hslash hc ih =>
      rename_i d part c
      obtain ⟨body, rfl⟩ := ih
      unfold Path.join
      split
      · rename_i habsolute
        cases part with
        | nil => exact absurd rfl (ofPart?_eq_some hc).1
        | cons x part =>
            have hx : x ≠ '/' := fun heq => hslash (heq ▸ List.mem_cons_self)
            simp [isAbsolute, hx] at habsolute
      · split
        · exact ⟨_, rfl⟩
        · exact ⟨_, rfl⟩

/-- Only the root ends with a separator. -/
theorem Plain.getLast? {d : Text} (h : Plain d) : d = ['/'] ∨ d.getLast? ≠ some '/' := by
  cases h with
  | root => exact .inl rfl
  | join hd hslash hc =>
      rename_i d part c
      have hne := (ofPart?_eq_some hc).1
      have hlast : ∀ front : Text, (front ++ part).getLast? ≠ some '/' := by
        intro front heq
        rw [List.getLast?_append, List.getLast?_eq_some_getLast hne] at heq
        exact hslash (Option.some.inj heq ▸ List.getLast_mem hne)
      right
      unfold Path.join
      split
      · exact hlast []
      · split
        · exact hlast d
        · have hfront := hlast (d ++ ['/'])
          rw [List.append_assoc] at hfront
          exact hfront

/-- A part is put behind a plain path with one separator. -/
theorem Plain.join_eq {body part : Text} {c : Component} (h : Plain ('/' :: body))
    (hslash : '/' ∉ part) (hc : ofPart? part = some c) :
    Path.join ('/' :: body) part = '/' :: if body = [] then part else body ++ '/' :: part := by
  have hrelative : isAbsolute part = false := by
    cases part with
    | nil => rfl
    | cons x part =>
        have hx : x ≠ '/' := fun heq => hslash (heq ▸ List.mem_cons_self)
        simpa [isAbsolute] using hx
  unfold Path.join
  rw [if_neg (by simp [hrelative])]
  by_cases hbody : body = []
  · rw [hbody]
    rfl
  · have hlast := h.getLast?.resolve_left (by simpa using hbody)
    rw [if_neg (by simpa using hlast), if_neg hbody]
    rfl

/-- **A plain path is known by its components.** -/
theorem Plain.eq_of_components {d d' : Text} (h : Plain d) (h' : Plain d')
    (hsame : components d = components d') : d = d' := by
  have hroot : ∀ {d part : Text} {c : Component}, Plain d → '/' ∉ part → ofPart? part = some c →
      components (Path.join d part) ≠ components ['/'] := by
    intro d part c _ hslash hc heq
    rw [components_join d hslash hc] at heq
    exact append_ne_root (ofPart?_eq_some hc).2.2.2.1 heq
  induction h generalizing d' with
  | root =>
      cases h' with
      | root => rfl
      | join hd hslash hc => exact absurd hsame.symm (hroot hd hslash hc)
  | join hd hslash hc ih =>
      cases h' with
      | root => exact absurd hsame (hroot hd hslash hc)
      | join hd' hslash' hc' =>
          rw [components_join _ hslash hc, components_join _ hslash' hc'] at hsame
          obtain ⟨hfront, hlast⟩ := List.append_inj' hsame rfl
          have heq := (List.cons.inj hlast).1
          rw [← (ofPart?_eq_some hc).2.2.1, ← (ofPart?_eq_some hc').2.2.1, ih hd' hfront, heq]

theorem Plain.joinAll {d : Text} (h : Plain d) {cs : List Component} (hcs : ∀ c ∈ cs, c.IsPart) :
    Plain (joinAll d cs) := by
  induction cs generalizing d with
  | nil => exact h
  | cons c cs ih =>
      obtain ⟨hc, hrest⟩ := List.forall_mem_cons.mp hcs
      exact ih (.join h hc.1 hc.2) hrest

/-! ## Going up -/

theorem trimBack_of_counts {cs : Text} (fuel : Nat)
    (h : cs = [] ∨ ∃ c, ofPart? (cs.takeWhile (· != '/')).reverse = some c) :
    trimBack fuel cs = cs := by
  cases fuel with
  | zero => rfl
  | succ fuel =>
      rw [trimBack]
      rcases h with rfl | ⟨c, hc⟩
      · rfl
      · obtain ⟨hne, hpoint, -⟩ := ofPart?_eq_some hc
        have hne' : cs.takeWhile (· != '/') ≠ [] := fun heq => hne (by rw [heq]; rfl)
        have hpoint' : cs.takeWhile (· != '/') ≠ ['.'] := fun heq => hpoint (by rw [heq]; rfl)
        rw [if_pos (by simp [hne', hpoint'])]

/-- The part at the end of a text that is written backwards. -/
theorem span_reverse {part : Text} (hslash : '/' ∉ part) (front : Text) :
    part.reverse.takeWhile (· != '/') = part.reverse ∧ part.reverse.dropWhile (· != '/') = [] ∧
      (front ++ '/' :: part).reverse.takeWhile (· != '/') = part.reverse ∧
      (front ++ '/' :: part).reverse.dropWhile (· != '/') = '/' :: front.reverse := by
  have hback : (front ++ '/' :: part).reverse = part.reverse ++ '/' :: front.reverse := by
    rw [List.reverse_append, List.reverse_cons, List.append_assoc]
    rfl
  have hall : ∀ x ∈ part.reverse, (x != '/') = true := by
    intro x hx
    have hne : x ≠ '/' := fun heq => hslash (heq ▸ List.mem_reverse.mp hx)
    simpa using hne
  refine ⟨?_, ?_, ?_, ?_⟩
  · rw [← List.append_nil part.reverse, List.takeWhile_append_of_pos hall]
    rfl
  · rw [← List.append_nil part.reverse, List.dropWhile_append_of_pos hall]
    rfl
  · rw [hback, List.takeWhile_append_of_pos hall]
    simp
  · rw [hback, List.dropWhile_append_of_pos hall]
    simp

/-- Nothing is dropped from the end of a plain path. -/
theorem Plain.trimBack_body {body : Text} (h : Plain ('/' :: body)) (fuel : Nat) :
    trimBack fuel body.reverse = body.reverse := by
  apply trimBack_of_counts
  generalize hd : '/' :: body = d at h
  cases h with
  | root => exact .inl (by rw [(List.cons.inj hd).2]; rfl)
  | join h hslash hc =>
      rename_i d part c
      right
      obtain ⟨body', rfl⟩ := h.head
      obtain ⟨htake, -, htake', -⟩ := span_reverse hslash body'
      rw [h.join_eq hslash hc] at hd
      refine ⟨c, ?_⟩
      rw [(List.cons.inj hd).2]
      split
      · rw [htake, List.reverse_reverse, hc]
      · rw [htake', List.reverse_reverse, hc]

theorem parent?_of_body {body : Text} (hne : body ≠ [])
    (h : ∀ fuel, trimBack fuel body.reverse = body.reverse) :
    parent? ('/' :: body) = some ('/' :: (trimBack ((body.reverse.dropWhile (· != '/')).drop 1).length
      ((body.reverse.dropWhile (· != '/')).drop 1)).reverse) := by
  unfold parent?
  dsimp only
  rw [show ('/' :: body).drop (lead ('/' :: body)).length = body from rfl, h]
  cases hback : body.reverse with
  | nil => exact absurd (List.reverse_eq_nil_iff.mp hback) hne
  | cons x back => rfl

/-- **Going up from a plain path drops its last part.** -/
theorem Plain.parent?_join {d part : Text} {c : Component} (h : Plain d) (hslash : '/' ∉ part)
    (hc : ofPart? part = some c) : parent? (Path.join d part) = some d := by
  obtain ⟨body, rfl⟩ := h.head
  obtain ⟨-, hdrop, -, hdrop'⟩ := span_reverse hslash body
  have hplain : Plain (Path.join ('/' :: body) part) := .join h hslash hc
  rw [h.join_eq hslash hc] at hplain ⊢
  by_cases hroot : body = []
  · rw [if_pos hroot] at hplain ⊢
    rw [parent?_of_body (ofPart?_eq_some hc).1 hplain.trimBack_body, hdrop, hroot]
    rfl
  · rw [if_neg hroot] at hplain ⊢
    rw [parent?_of_body (by simp) hplain.trimBack_body, hdrop', List.drop_succ_cons, List.drop_zero,
      h.trimBack_body, List.reverse_reverse]

theorem Plain.ancestors {d : Text} (h : Plain d) (count : Nat) {a : Text}
    (ha : a ∈ ancestors count d) : Plain a := by
  induction count generalizing d with
  | zero => exact absurd ha (by simp [Path.ancestors])
  | succ count ih =>
      rw [Path.ancestors] at ha
      rcases List.mem_cons.mp ha with rfl | ha
      · exact h
      · cases h with
        | root => exact absurd ha (by simp [show parent? ['/'] = none from rfl])
        | join h hslash hc =>
            rw [h.parent?_join hslash hc] at ha
            exact ih h ha

/-! ## The directory of a file -/

/-- Whether a path begins with exactly two separators. -/
def doubled (path : Text) : Bool :=
  "//".toList.isPrefixOf path && !"///".toList.isPrefixOf path

/-- The parent is a beginning of the path, and does not end with a separator. -/
theorem begins_of_parent? {path p : Text} (h : parent? path = some p) :
    p <+: path ∧ (p = ['/'] ∨ p.getLast? ≠ some '/') := by
  have hpath : lead path ++ path.drop (lead path).length = path := by
    rcases lead_cases path with ⟨cs, rfl, hlead⟩ | ⟨rfl | ⟨cs, rfl⟩, hlead⟩ | ⟨hlead, -⟩ <;>
      rw [hlead] <;> rfl
  have htrim := trimmed_trimBack _ _ (Nat.le_refl (path.drop (lead path).length).reverse.length)
  unfold parent? at h
  dsimp only at h
  cases hrest : trimBack (path.drop (lead path).length).reverse.length
      (path.drop (lead path).length).reverse with
  | nil =>
      rw [hrest] at h
      dsimp only at h
      split at h
      · injection h with h
        subst h
        exact ⟨List.nil_prefix, .inr (by simp)⟩
      · exact absurd h (by simp)
  | cons x xs =>
      rw [hrest] at h htrim
      dsimp only at h
      injection h with h
      obtain ⟨c, hc⟩ := htrim.counts.resolve_left (by simp)
      obtain ⟨-, hfront⟩ := named_reverse hc
      generalize ((x :: xs).dropWhile (· != '/')).drop 1 = rest at h hfront
      have htrim' := trimmed_trimBack rest.length rest (Nat.le_refl _)
      have hbegins : ∀ {a b : Text}, a = b ∨ Front a b → a <+: b := by
        rintro a b (rfl | rfl | ⟨after, rfl⟩)
        · exact List.prefix_refl a
        · exact List.nil_prefix
        · exact List.prefix_append a _
      constructor
      · have hbody := (hbegins htrim'.front).trans ((hbegins (.inr hfront)).trans (hbegins htrim.front))
        rw [List.reverse_reverse] at hbody
        rw [← h]
        conv => rhs; rw [← hpath]
        exact (List.prefix_append_right_inj _).mpr hbody
      · rcases htrim'.counts with hnil | ⟨c', hc'⟩
        · rw [hnil] at h
          rw [← h]
          rcases lead_cases path with ⟨cs, -, hlead⟩ | ⟨-, hlead⟩ | ⟨hlead, -⟩
          · rw [hlead]
            exact .inl rfl
          · rw [hlead]
            exact .inr (by simp)
          · rw [hlead]
            exact .inr (by simp)
        · right
          rw [← h, List.getLast?_append, List.getLast?_reverse]
          cases hkept : trimBack rest.length rest with
          | nil =>
              rw [hkept] at hc'
              exact absurd rfl (ofPart?_eq_some hc').1
          | cons y ys =>
              rw [hkept] at hc'
              intro heq
              have hy : y = '/' := by simpa using heq
              rw [hy] at hc'
              exact absurd (by simp) (ofPart?_eq_some hc').1

theorem plain_absolute {current path : Text} (hcurrent : Plain current)
    (hpath : doubled path = false) (hend : path = ['/'] ∨ path.getLast? ≠ some '/') :
    Plain (absolute current path) := by
  have hparts : ∀ c ∈ named path, c.IsPart := fun c => isPart_of_mem_named
  unfold absolute
  rw [show ("//".toList.isPrefixOf path && !"///".toList.isPrefixOf path) = false from hpath]
  rcases hend with rfl | hend
  · exact .root
  · rw [if_neg (by simp [hend])]
    rcases components_cases path with ⟨habsolute, hcomponents⟩ | ⟨hrelative, hfilter, -⟩
    · rw [habsolute, hcomponents]
      exact Plain.joinAll .root hparts
    · rw [hrelative, hfilter]
      exact hcurrent.joinAll hparts

/-- **The directory of a file is spelled plainly**, unless the path of the file begins with exactly
two separators. -/
theorem plain_containing {current file : Text} (hcurrent : Plain current)
    (hfile : doubled file = false) : Plain (containing current file) := by
  unfold containing
  split
  · rename_i c cs hparent
    obtain ⟨⟨rest, rfl⟩, hend⟩ := begins_of_parent? hparent
    refine plain_absolute hcurrent ?_ hend
    -- three characters decide, and a parent of two separators would end with one
    cases cs with
    | nil => simp [doubled]
    | cons c' cs =>
        cases cs with
        | nil =>
            have hc' : c' ≠ '/' := by simpa using hend.resolve_left (by simp)
            simp [doubled, Ne.symm hc']
        | cons c'' cs => exact hfile
  · exact plain_absolute hcurrent rfl (.inr (by simp))

end Path

/-! ## Places -/

namespace FileSystem

/-- A place whose names can stand between separators. -/
def ProperPlace (place : Place) : Prop := ∀ n ∈ place, Path.IsName n

theorem pathOf_cons (n : Text) (place : Place) :
    pathOf (n :: place) = '/' :: n ++ (if place = [] then [] else pathOf place) := by
  unfold pathOf Text.join
  cases place with
  | nil => simp
  | cons m place => simp [List.intercalate, List.intersperse]

/-- The names of a place, put one by one behind a plain path. -/
theorem joinAll_names {body : Text} (h : Path.Plain ('/' :: body)) {place : Place}
    (hplace : ProperPlace place) :
    Path.joinAll ('/' :: body) (place.map Path.Component.name) =
      if place = [] then '/' :: body
      else (if body = [] then [] else '/' :: body) ++ pathOf place := by
  induction place generalizing body with
  | nil => rfl
  | cons n place ih =>
      obtain ⟨hn, hrest⟩ := List.forall_mem_cons.mp hplace
      have hnext : Path.Plain (Path.join ('/' :: body) n) := .join h hn.1 hn.2
      show Path.joinAll (Path.join ('/' :: body) n) _ = _
      rw [h.join_eq hn.1 hn.2] at hnext ⊢
      have hne : (if body = [] then n else body ++ '/' :: n) ≠ [] := by
        split
        · exact (Path.ofPart?_eq_some hn.2).1
        · simp
      rw [ih hnext hrest, if_neg (List.cons_ne_nil n place), if_neg hne, pathOf_cons]
      by_cases hbody : body = [] <;> by_cases hend : place = [] <;> simp [hbody, hend]

/-- **The path of a place is plain and has the names of the place as components.** -/
theorem plain_pathOf {place : Place} (h : ProperPlace place) :
    Path.Plain (pathOf place) ∧
      Path.components (pathOf place) = .root :: place.map Path.Component.name := by
  have hparts : ∀ c ∈ place.map Path.Component.name, c.IsPart := by
    intro c hc
    obtain ⟨n, hn, rfl⟩ := List.mem_map.mp hc
    exact h n hn
  have hjoin : Path.joinAll ['/'] (place.map Path.Component.name) = pathOf place := by
    rw [joinAll_names .root h]
    split
    · rename_i hnil
      rw [hnil]
      rfl
    · rfl
  rw [← hjoin]
  exact ⟨Path.Plain.root.joinAll hparts, Path.components_joinAll ['/'] hparts⟩

end FileSystem

end ClassSort
