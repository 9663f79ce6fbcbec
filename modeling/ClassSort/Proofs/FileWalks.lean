import ClassSort.Proofs.PlainPaths

/-!
# Walking a file tree

Following a path is a walk that takes one component after the other: the walk along two parts is
the walk along the first, and from where it ends along the second (`follow_append`). A name goes
down, a `..` goes up, and a `.` stays. Seen from the root, a path leads to the same place
(`Proper.follow_fromRoot`).
-/

namespace ClassSort

open ClassSort.Path (Component components)

/-! ## Following a path -/

namespace FileSystem

variable {fs : FileSystem}

theorem follow_append (fs : FileSystem) (back : Place) (cs ds : List Component) :
    fs.follow back (cs ++ ds) = (fs.follow back cs).bind fun place => fs.follow place.reverse ds := by
  induction cs generalizing back with
  | nil =>
      show fs.follow back ds = fs.follow back.reverse.reverse ds
      rw [List.reverse_reverse]
  | cons c cs ih =>
      cases c with
      | root => exact ih []
      | current => exact ih back
      | up =>
          rw [List.cons_append, follow, follow]
          split
          · exact ih _
          · rfl
      | name n =>
          rw [List.cons_append, follow, follow]
          split
          · split
            · exact ih _
            · rfl
          · rfl

theorem follow_up {back place : Place} (h : fs.follow back [.up] = .ok place) :
    (∃ es, fs.root.find? back.reverse = some (.directory es)) ∧ place = back.reverse.dropLast := by
  rw [follow] at h
  split at h
  · rename_i es hes
    injection h with h
    rw [← h]
    exact ⟨⟨es, hes⟩, by simp⟩
  · exact absurd h (by simp)

theorem follow_name {back place : Place} {n : Text} :
    fs.follow back [.name n] = .ok place ↔
      ∃ es, fs.root.find? back.reverse = some (.directory es) ∧
        (FileTree.lookup n es).isSome ∧ place = back.reverse ++ [n] := by
  rw [follow]
  constructor
  · intro h
    split at h
    · rename_i es hes
      split at h
      · rename_i hn
        injection h with h
        exact ⟨es, hes, hn, by rw [← h]; simp⟩
      · exact absurd h (by simp)
    · exact absurd h (by simp)
  · rintro ⟨es, hes, hn, rfl⟩
    rw [hes]
    dsimp only
    rw [if_pos hn, follow]
    simp

/-- The last component of a path. -/
theorem follow_concat {back place : Place} {cs : List Component} {c : Component}
    (h : fs.follow back (cs ++ [c]) = .ok place) :
    ∃ dir, fs.follow back cs = .ok dir ∧ fs.follow dir.reverse [c] = .ok place := by
  rw [follow_append] at h
  cases hdir : fs.follow back cs with
  | error e =>
      rw [hdir] at h
      exact absurd h (by simp [Except.bind])
  | ok dir =>
      rw [hdir] at h
      exact ⟨dir, rfl, h⟩

/-- A walk goes no deeper than it is long. -/
theorem length_of_follow {back place : Place} {cs : List Component}
    (h : fs.follow back cs = .ok place) : place.length ≤ back.length + cs.length := by
  induction cs generalizing back with
  | nil =>
      injection h with h
      simp [← h]
  | cons c cs ih =>
      rw [List.length_cons]
      cases c with
      | root =>
          have hrest := ih (show fs.follow [] cs = .ok place from h)
          rw [List.length_nil] at hrest
          omega
      | current =>
          have hrest := ih (show fs.follow back cs = .ok place from h)
          omega
      | up =>
          rw [follow] at h
          split at h
          · have hrest := ih h
            rw [List.length_drop] at hrest
            omega
          · exact absurd h (by simp)
      | name n =>
          rw [follow] at h
          split at h
          · split at h
            · have hrest := ih h
              rw [List.length_cons] at hrest
              omega
            · exact absurd h (by simp)
          · exact absurd h (by simp)

/-- A `.` leads nowhere. -/
theorem follow_filter (fs : FileSystem) (back : Place) (cs : List Component) :
    fs.follow back (cs.filter (· != .current)) = fs.follow back cs := by
  induction cs generalizing back with
  | nil => rfl
  | cons c cs ih =>
      cases c with
      | root => exact ih []
      | current => exact ih back
      | up =>
          show fs.follow back (.up :: cs.filter (· != .current)) = _
          rw [follow, follow]
          split
          · exact ih _
          · rfl
      | name n =>
          show fs.follow back (.name n :: cs.filter (· != .current)) = _
          rw [follow, follow]
          split
          · split
            · exact ih _
            · rfl
          · rfl

/-- Names lead down. -/
theorem place_of_follow_names {back place : Place} {ns : List Text}
    (h : fs.follow back (ns.map Component.name) = .ok place) : place = back.reverse ++ ns := by
  induction ns generalizing back with
  | nil =>
      injection h with h
      rw [← h, List.append_nil]
  | cons n ns ih =>
      rw [List.map_cons, follow] at h
      split at h
      · split at h
        · rw [ih h]
          simp
        · exact absurd h (by simp)
      · exact absurd h (by simp)

end FileSystem

namespace FileTree

theorem find?_append (p q : Place) (t : FileTree) : t.find? (p ++ q) = (t.find? p).bind (find? q) := by
  induction p generalizing t with
  | nil => rfl
  | cons n p ih =>
      cases t with
      | file c => rfl
      | directory es =>
          show (lookup n es).bind (find? (p ++ q)) = ((lookup n es).bind (find? p)).bind (find? q)
          cases lookup n es with
          | none => rfl
          | some t => exact ih t

/-- What stands at a place stands in a directory. -/
theorem find?_concat {p : Place} {n : Text} {t x : FileTree} :
    t.find? (p ++ [n]) = some x ↔
      ∃ es, t.find? p = some (.directory es) ∧ lookup n es = some x := by
  rw [find?_append]
  constructor
  · intro h
    obtain ⟨t', ht', h⟩ := Option.bind_eq_some_iff.mp h
    cases t' with
    | file c => exact absurd h (by simp [find?])
    | directory es =>
        obtain ⟨x', hx', h⟩ := Option.bind_eq_some_iff.mp h
        exact ⟨es, ht', by rw [hx', ← Option.some.inj h]⟩
  · rintro ⟨es, hes, hn⟩
    rw [hes]
    show (lookup n es).bind (find? []) = some x
    rw [hn]
    rfl

/-- What stands above a directory is a directory. -/
theorem find?_above {p q : Place} {t : FileTree} {es : List (Text × FileTree)} (hp : p <+: q)
    (h : t.find? q = some (.directory es)) : ∃ es', t.find? p = some (.directory es') := by
  obtain ⟨r, rfl⟩ := hp
  rw [find?_append] at h
  obtain ⟨x, hx, h⟩ := Option.bind_eq_some_iff.mp h
  cases x with
  | directory es' => exact ⟨es', hx⟩
  | file c => cases r <;> exact absurd h (by simp [find?])

end FileTree

namespace FileSystem

variable {fs : FileSystem}

theorem follow_names {back : Place} {ns : List Text} {t : FileTree}
    (h : fs.root.find? (back.reverse ++ ns) = some t) :
    fs.follow back (ns.map Component.name) = .ok (back.reverse ++ ns) := by
  induction ns generalizing back with
  | nil => rw [List.append_nil]; rfl
  | cons n ns ih =>
      -- one step down, from where the rest of the walk is the shorter one
      have hsplit : back.reverse ++ n :: ns = (n :: back).reverse ++ ns := by simp
      rw [hsplit] at h ⊢
      have hnext := ih h
      rw [FileTree.find?_append] at h
      obtain ⟨x, hx, -⟩ := Option.bind_eq_some_iff.mp h
      rw [List.reverse_cons] at hx
      obtain ⟨es, hes, hn⟩ := FileTree.find?_concat.mp hx
      rw [List.map_cons, follow, hes]
      dsimp only
      rw [if_pos (by rw [hn]; rfl)]
      exact hnext

/-- The current directory exists, and its names can stand in a path. -/
structure Proper (fs : FileSystem) : Prop where
  names : ProperPlace fs.current
  directory : ∃ es, fs.root.find? fs.current = some (.directory es)

/-- Seen from the root, a path leads to the same place. -/
theorem Proper.follow_fromRoot (h : fs.Proper) (cs : List Component) :
    fs.follow fs.current.reverse (Path.fromRoot (components fs.currentPath) cs) =
      fs.follow fs.current.reverse cs := by
  obtain ⟨es, hes⟩ := h.directory
  unfold Path.fromRoot
  split
  · rfl
  · have hdown : fs.follow [] (fs.current.map Component.name) = .ok fs.current :=
      @follow_names fs [] fs.current _ hes
    unfold currentPath
    rw [(plain_pathOf h.names).2]
    show fs.follow [] (fs.current.map Component.name ++ cs.filter (· != .current)) = _
    rw [follow_append, hdown]
    exact follow_filter fs _ cs

theorem follow_of_locate {path : Text} {place : Place} (h : fs.locate path = .ok place) :
    fs.follow fs.current.reverse (components path) = .ok place ∧
      ∃ t, fs.root.find? place = some t := by
  unfold locate at h
  split at h
  · exact absurd h (by simp)
  · cases hfollow : fs.follow fs.current.reverse (components path) with
    | error e =>
        rw [hfollow] at h
        exact absurd h (by simp [bind, Except.bind])
    | ok place' =>
        rw [hfollow] at h
        dsimp only [bind, Except.bind] at h
        split at h
        · rename_i hfind
          split at h
          · exact absurd h (by simp)
          · injection h with h
            subst h
            exact ⟨rfl, _, hfind⟩
        · rename_i hfind
          injection h with h
          subst h
          exact ⟨rfl, _, hfind⟩
        · exact absurd h (by simp)

end FileSystem

end ClassSort
