import ClassSort.FileSystem.Basic

/-!
# Writing into files that exist

To overwrite a file is to change its content and nothing else. What can be seen of a tree is, at
every place, the content of a file or the names in a directory: `find?_put` says that one content
changes and no names do.

Where a path leads depends on names alone, so after any number of such writes every path leads
where it led before (`Alike.locate`).
-/

namespace ClassSort

namespace FileTree

/-- The content of a file. -/
def content? : FileTree → Option Content
  | .file c => some c
  | .directory _ => none

/-- The names in a directory. -/
def names? : FileTree → Option (List Text)
  | .file _ => none
  | .directory es => some (es.map Prod.fst)

/-! ## Entries -/

theorem lookup_insert (m n : Text) (t : FileTree) (es : List (Text × FileTree)) :
    lookup m (insert n t es) = if n = m then some t else lookup m es := by
  induction es with
  | nil => rfl
  | cons e es ih =>
      rw [insert]
      by_cases hn : e.1 = n
      · rw [if_pos hn, lookup, lookup, hn]
        split <;> rfl
      · rw [if_neg hn, lookup, lookup, ih]
        by_cases hm : e.1 = m
        · rw [if_pos hm, if_pos hm, if_neg fun h => hn (hm.trans h.symm)]
        · rw [if_neg hm, if_neg hm]

theorem map_fst_insert {n : Text} {t old : FileTree} {es : List (Text × FileTree)}
    (h : lookup n es = some old) : (insert n t es).map Prod.fst = es.map Prod.fst := by
  induction es with
  | nil => exact absurd h (by simp [lookup])
  | cons e es ih =>
      rw [lookup] at h
      rw [insert]
      split at h
      · rename_i hn
        rw [if_pos hn]
        rfl
      · rename_i hn
        rw [if_neg hn, List.map_cons, ih h]
        rfl

/-- A name has an entry if it is there. -/
theorem isSome_lookup (n : Text) (es : List (Text × FileTree)) :
    (lookup n es).isSome = (es.map Prod.fst).contains n := by
  induction es with
  | nil => rfl
  | cons e es ih =>
      rw [lookup, List.map_cons, List.contains_cons, ← ih]
      by_cases h : e.1 = n
      · rw [if_pos h, h]
        simp
      · rw [if_neg h]
        simp [Ne.symm h]

/-! ## A write -/

/-- A write below a name goes through the directory that has the name. -/
theorem put_cons {old : FileTree} {n : Text} {place : Place} {t : FileTree} (new : FileTree)
    (h : t.find? (n :: place) = some old) :
    ∃ es t', t = .directory es ∧ lookup n es = some t' ∧ t'.find? place = some old ∧
      put new (n :: place) t = .directory (insert n (put new place t') es) := by
  cases t with
  | file c => exact absurd h (by simp [find?])
  | directory es =>
      obtain ⟨t', ht', hold⟩ := Option.bind_eq_some_iff.mp (show (lookup n es).bind _ = _ from h)
      refine ⟨es, t', rfl, ht', hold, ?_⟩
      rw [put, ht']
      rfl

/-- **A write changes the content at its place**, no other content, and no names. -/
theorem find?_put {old new : Content} {place : Place} {t : FileTree}
    (h : t.find? place = some (.file old)) (q : Place) :
    ((put (.file new) place t).find? q).bind content? =
        (if q = place then some new else (t.find? q).bind content?) ∧
      ((put (.file new) place t).find? q).map names? = (t.find? q).map names? := by
  induction place generalizing t q with
  | nil =>
      have ht : t = .file old := Option.some.inj h
      subst ht
      cases q with
      | nil => exact ⟨rfl, rfl⟩
      | cons m q => exact ⟨rfl, rfl⟩
  | cons n place ih =>
      obtain ⟨es, t', rfl, ht', hold, hput⟩ := put_cons (.file new) h
      rw [hput]
      cases q with
      | nil => exact ⟨rfl, congrArg (fun names => some (some names)) (map_fst_insert ht')⟩
      | cons m q =>
          rw [find?, find?, lookup_insert]
          -- behind the name the write goes on, behind all others nothing changes
          by_cases hm : n = m
          · subst hm
            rw [if_pos rfl, ht']
            simpa using ih hold q
          · rw [if_neg hm, if_neg fun h => hm (List.cons.inj h).1.symm]
            exact ⟨rfl, rfl⟩

end FileTree

namespace FileSystem

variable {fs fs' : FileSystem}

/-- The same files and directories, whatever the files hold. -/
structure Alike (fs fs' : FileSystem) : Prop where
  current : fs.current = fs'.current
  names : ∀ place, (fs.root.find? place).map FileTree.names? =
    (fs'.root.find? place).map FileTree.names?

theorem Alike.refl (fs : FileSystem) : fs.Alike fs := ⟨rfl, fun _ => rfl⟩

theorem Alike.trans {fs'' : FileSystem} (h : fs.Alike fs') (h' : fs'.Alike fs'') :
    fs.Alike fs'' :=
  ⟨h.current.trans h'.current, fun place => (h.names place).trans (h'.names place)⟩

/-- At a place are two files, two directories with the same names, or nothing in either. -/
theorem Alike.find?_cases (h : fs.Alike fs') (place : Place) :
    (∃ c c', fs.root.find? place = some (.file c) ∧ fs'.root.find? place = some (.file c')) ∨
    (∃ es es', fs.root.find? place = some (.directory es) ∧
      fs'.root.find? place = some (.directory es') ∧ es.map Prod.fst = es'.map Prod.fst) ∨
    (fs.root.find? place = none ∧ fs'.root.find? place = none) := by
  have hnames := h.names place
  cases ht : fs.root.find? place with
  | none =>
      rw [ht] at hnames
      exact .inr (.inr ⟨rfl, Option.map_eq_none_iff.mp hnames.symm⟩)
  | some t =>
      rw [ht] at hnames
      obtain ⟨t', ht', hsame⟩ := Option.map_eq_some_iff.mp hnames.symm
      rw [ht']
      cases t with
      | file c =>
          cases t' with
          | file c' => exact .inl ⟨c, c', rfl, rfl⟩
          | directory es' => exact absurd hsame (by simp [FileTree.names?])
      | directory es =>
          cases t' with
          | file c' => exact absurd hsame (by simp [FileTree.names?])
          | directory es' => exact .inr (.inl ⟨es, es', rfl, rfl, (Option.some.inj hsame).symm⟩)

theorem Alike.follow (h : fs.Alike fs') (back : Place) (cs : List Path.Component) :
    fs.follow back cs = fs'.follow back cs := by
  induction cs generalizing back with
  | nil => rfl
  | cons c cs ih =>
      cases c with
      | root => exact ih []
      | current => exact ih back
      | up =>
          rw [FileSystem.follow, FileSystem.follow]
          rcases h.find?_cases back.reverse with ⟨c, c', ht, ht'⟩ | ⟨es, es', ht, ht', -⟩ | ⟨ht, ht'⟩
          · rw [ht, ht']
          · rw [ht, ht']
            exact ih _
          · rw [ht, ht']
      | name n =>
          rw [FileSystem.follow, FileSystem.follow]
          rcases h.find?_cases back.reverse with
            ⟨c, c', ht, ht'⟩ | ⟨es, es', ht, ht', hnames⟩ | ⟨ht, ht'⟩
          · rw [ht, ht']
          · rw [ht, ht']
            dsimp only
            rw [FileTree.isSome_lookup, FileTree.isSome_lookup, hnames, ih]
          · rw [ht, ht']

/-- **Paths lead to the same places.** -/
theorem Alike.locate (h : fs.Alike fs') (path : Text) : fs.locate path = fs'.locate path := by
  unfold FileSystem.locate
  rw [h.follow, h.current]
  split
  · rfl
  · cases fs'.follow fs'.current.reverse (Path.components path) with
    | error e => rfl
    | ok place =>
        dsimp only [bind, Except.bind]
        rcases h.find?_cases place with ⟨c, c', ht, ht'⟩ | ⟨es, es', ht, ht', -⟩ | ⟨ht, ht'⟩
        · rw [ht, ht']
        · rw [ht, ht']
        · rw [ht, ht']

/-- **Overwriting a file changes its content only.** -/
theorem overwrite_of_locate {path t : Text} {place : Place} {old : Content}
    (hlocate : fs.locate path = .ok place) (hfile : fs.root.find? place = some (.file old)) :
    fs.Alike (fs.overwrite path t) ∧
      ∀ q, ((fs.overwrite path t).root.find? q).bind FileTree.content? =
        if q = place then some (.text t) else (fs.root.find? q).bind FileTree.content? := by
  unfold overwrite
  rw [hlocate]
  exact ⟨⟨rfl, fun q => (FileTree.find?_put hfile q).2.symm⟩,
    fun q => (FileTree.find?_put hfile q).1⟩

end FileSystem

end ClassSort
