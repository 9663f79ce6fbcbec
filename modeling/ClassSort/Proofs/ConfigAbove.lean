import Mathlib.Data.List.Infix
import ClassSort.Proofs.FileWalks
import ClassSort.Proofs.ResolverMemory

/-!
# The configuration above a file

A file has one place but many paths, and the search for its configuration follows the path, not
the place. Going up from `a/../b` it looks into `a/..` and then into `a`, which is not above the
file at all. So the configuration of a file may depend on how its path is spelled.

It does not for paths without `..`: they all have the same directories above them, those of the
place. Nor does it for other paths, unless **a directory that the path leaves again holds a
configuration**, or the path is so long that the search ends too early. The argument goes along
the path from its beginning: a name goes down to a new directory, which is looked into first; a
`..` leaves a directory, and if that one holds no configuration, the search behaves as if it had
never been entered.
-/

namespace ClassSort

open ClassSort.Path (Component components)

namespace FileSystem

/-- The place that components lead to. -/
def locateAt (fs : FileSystem) (cs : List Component) : Except PathError Place := do
  let place ← follow fs fs.current.reverse cs
  match fs.root.find? place with
  | some _ => return place
  | none => .error .notFound

theorem locate_eq_locateAt (fs : FileSystem) {path : Text} (hne : path ≠ [])
    (hasks : asksDirectory path = false) : fs.locate path = fs.locateAt (components path) := by
  have hnonempty : path.isEmpty = false := by simpa using hne
  unfold locate locateAt
  rw [hnonempty, hasks]
  cases follow fs fs.current.reverse (components path) with
  | error e => rfl
  | ok place =>
      cases hfind : fs.root.find? place with
      | none => simp [bind, Except.bind, hfind]
      | some t => cases t <;> simp [bind, Except.bind, pure, Except.pure, hfind]

theorem locateAt_of_follow {fs : FileSystem} {cs : List Component} {place : Place} {t : FileTree}
    (hfollow : fs.follow fs.current.reverse cs = .ok place) (ht : fs.root.find? place = some t) :
    fs.locateAt cs = .ok place := by
  unfold locateAt
  rw [hfollow]
  simp [bind, Except.bind, pure, Except.pure, ht]

end FileSystem

namespace Project

variable {fs : FileSystem}

/-! ## Configurations by place -/

/-- The configuration file in a directory. -/
def configName? (fs : FileSystem) (dir : Place) : Option Text :=
  configNames.find? fun n =>
    match fs.root.find? (dir ++ [n]) with
    | some (.file _) => true
    | _ => false

/-- The place of the nearest configuration file in a directory or above it. -/
def configAbove? (fs : FileSystem) (dir : Place) : Option Place :=
  dir.inits.reverse.findSome? fun d => (configName? fs d).map (d ++ [·])

theorem configAbove?_of_some {dir : Place} {n : Text} (h : configName? fs dir = some n) :
    configAbove? fs dir = some (dir ++ [n]) := by
  unfold configAbove?
  rcases List.eq_nil_or_concat dir with rfl | ⟨d, m, rfl⟩
  · simp [h]
  · rw [List.concat_eq_append] at h ⊢
    simp [List.inits_append, h]

theorem configAbove?_nil_of_none (h : configName? fs [] = none) : configAbove? fs [] = none := by
  simp [configAbove?, h]

theorem configAbove?_concat_of_none {d : Place} {m : Text}
    (h : configName? fs (d ++ [m]) = none) : configAbove? fs (d ++ [m]) = configAbove? fs d := by
  simp [configAbove?, List.inits_append, h]

theorem exists_of_configName? {dir : Place} {n : Text} (h : configName? fs dir = some n) :
    ∃ c, fs.root.find? (dir ++ [n]) = some (.file c) := by
  have hfile := List.find?_some h
  split at hfile
  · rename_i c hc
    exact ⟨c, hc⟩
  · exact absurd hfile (by simp)

/-- A configuration above a directory is there, in a directory that really is above. -/
theorem exists_of_configAbove? {dir place : Place} (h : configAbove? fs dir = some place) :
    ∃ d n, d <+: dir ∧ configName? fs d = some n ∧ place = d ++ [n] := by
  obtain ⟨d, hd, hplace⟩ := List.exists_of_findSome?_eq_some h
  obtain ⟨n, hn, rfl⟩ := Option.map_eq_some_iff.mp hplace
  exact ⟨d, n, (List.mem_inits _ _).mp (List.mem_reverse.mp hd), hn, rfl⟩

/-- Components that lead to a directory find the configuration in it. -/
theorem configAt?_of_follow {cs : List Component} {dir : Place} {es : List (Text × FileTree)}
    (hfollow : fs.follow fs.current.reverse cs = .ok dir)
    (hdir : fs.root.find? dir = some (.directory es)) :
    configAt? fs cs = (configName? fs dir).map fun n => cs ++ [.name n] := by
  unfold configAt? configName?
  rw [List.find?_map]
  congr 2
  funext n
  have hnext : fs.follow fs.current.reverse (cs ++ [.name n]) =
      fs.follow dir.reverse [.name n] := by
    rw [FileSystem.follow_append, hfollow]
    rfl
  have hfind : fs.root.find? (dir ++ [n]) = FileTree.lookup n es := by
    rw [FileTree.find?_append, hdir]
    show (FileTree.lookup n es).bind (FileTree.find? []) = _
    cases FileTree.lookup n es <;> rfl
  show isFileAt fs (cs ++ [.name n]) = _
  unfold isFileAt FileSystem.getAt
  rw [hnext, FileSystem.follow, List.reverse_reverse, hdir]
  dsimp only
  cases hn : FileTree.lookup n es with
  | none =>
      rw [hfind, hn]
      rfl
  | some t =>
      have hplace : fs.follow (n :: dir.reverse) [] = .ok (dir ++ [n]) := by
        simp [FileSystem.follow]
      rw [if_pos Option.isSome_some, hplace]
      simp only [bind, Except.bind, hfind, hn, pure, Except.pure]
      cases t <;> rfl

/-- A configuration that is found through components is at its place. -/
theorem locateAt_config {cs : List Component} {dir : Place} {n : Text}
    (hfollow : fs.follow fs.current.reverse cs = .ok dir) (hn : configName? fs dir = some n) :
    fs.locateAt (cs ++ [.name n]) = .ok (dir ++ [n]) := by
  obtain ⟨c, hc⟩ := exists_of_configName? hn
  obtain ⟨es, hes, hlookup⟩ := FileTree.find?_concat.mp hc
  refine FileSystem.locateAt_of_follow ?_ hc
  rw [FileSystem.follow_append, hfollow]
  have hname := FileSystem.follow_name.mpr
    ⟨es, by rw [List.reverse_reverse]; exact hes, by rw [hlookup]; rfl, rfl⟩
  rw [List.reverse_reverse] at hname
  exact hname

/-! ## The search along a path -/

/-- Every directory with a configuration that components from the root pass is above the place
where they lead. -/
def PassesAbove (fs : FileSystem) (rest : List Component) (dir : Place) : Prop :=
  ∀ front d, front <+: rest → fs.follow [] front = .ok d → (configName? fs d).isSome → d <+: dir

theorem isPart_cases {c : Component} (h : c.IsPart) : c = .up ∨ ∃ n, c = .name n := by
  obtain ⟨-, -, -, hroot, hcurrent⟩ := Path.ofPart?_eq_some h.2
  cases c with
  | root => exact absurd rfl hroot
  | current => exact absurd rfl hcurrent
  | up => exact .inl rfl
  | name n => exact .inr ⟨n, rfl⟩

/-- One step back from a directory without a configuration: the nearest one above stays. -/
theorem PassesAbove.step_back {rest : List Component} {c : Component} {dir : Place}
    (hpasses : PassesAbove fs (rest ++ [c]) dir) (hc : c.IsPart)
    (hfollow : fs.follow [] (rest ++ [c]) = .ok dir) (hn : configName? fs dir = none) :
    ∃ mid es, fs.follow [] rest = .ok mid ∧ fs.root.find? mid = some (.directory es) ∧
      PassesAbove fs rest mid ∧ configAbove? fs mid = configAbove? fs dir := by
  obtain ⟨mid, hmid, hlast⟩ := FileSystem.follow_concat hfollow
  have hbefore : PassesAbove fs rest dir := fun front d hfront =>
    hpasses front d (hfront.trans (List.prefix_append _ _))
  rcases isPart_cases hc with rfl | ⟨m, rfl⟩
  · obtain ⟨⟨es, hes⟩, hplace⟩ := FileSystem.follow_up hlast
    rw [List.reverse_reverse] at hes hplace
    rcases List.eq_nil_or_concat mid with rfl | ⟨d, x, hd⟩
    -- at the root `..` stays
    · have hsame : dir = [] := hplace
      subst hsame
      exact ⟨[], es, hmid, hes, hbefore, rfl⟩
    -- the directory that is left holds no configuration, since it is not above
    · rw [List.concat_eq_append] at hd
      subst hd
      rw [List.dropLast_concat] at hplace
      subst hplace
      have hleft : configName? fs (dir ++ [x]) = none := by
        refine Option.not_isSome_iff_eq_none.mp fun hsome => ?_
        have hlength := (hpasses rest _ (List.prefix_append _ _) hmid hsome).length_le
        rw [List.length_append, List.length_singleton] at hlength
        omega
      exact ⟨dir ++ [x], es, hmid, hes, fun front d hfront hd hsome =>
        (hbefore front d hfront hd hsome).trans (List.prefix_append _ _),
        configAbove?_concat_of_none hleft⟩
  · obtain ⟨es, hes, -, hplace⟩ := FileSystem.follow_name.mp hlast
    rw [List.reverse_reverse] at hes hplace
    subst hplace
    refine ⟨mid, es, hmid, hes, fun front d hfront hd hsome => ?_,
      (configAbove?_concat_of_none hn).symm⟩
    rcases List.prefix_concat_iff.mp (hbefore front d hfront hd hsome) with rfl | hd
    · rw [hn] at hsome
      exact absurd hsome (by simp)
    · exact hd

theorem upward_concat (count : Nat) (rest : List Component) (c : Component) :
    Path.upward (count + 1) (.root :: (rest ++ [c])) =
      (.root :: (rest ++ [c])) :: Path.upward count (.root :: rest) := by
  have hdrop : (.root :: (rest ++ [c])).dropLast = .root :: rest := by
    show ((.root :: rest) ++ [c]).dropLast = .root :: rest
    exact List.dropLast_concat
  rw [Path.upward, if_neg (by simp), hdrop]

/-- **A path that passes no configuration but those above finds the nearest one above.** -/
theorem findSome?_upward {rest : List Component} {count : Nat} {dir : Place}
    {es : List (Text × FileTree)} (hparts : ∀ c ∈ rest, c.IsPart)
    (hfollow : fs.follow [] rest = .ok dir) (hdir : fs.root.find? dir = some (.directory es))
    (hcount : rest.length < count) (hpasses : PassesAbove fs rest dir) :
    ((Path.upward count (.root :: rest)).findSome? (configAt? fs)).map fs.locateAt =
      (configAbove? fs dir).map .ok := by
  -- along the path from its end, which is where the search begins
  induction rest using List.reverseRecOn generalizing count dir es with
  | nil =>
      obtain ⟨count, rfl⟩ : ∃ k, count = k + 1 := ⟨count - 1, by simp at hcount; omega⟩
      have hroot : dir = [] := by injection hfollow with h; exact h.symm
      subst hroot
      have hup : Path.upward (count + 1) [.root] = [[.root]] := rfl
      rw [hup, List.findSome?_singleton, configAt?_of_follow rfl hdir]
      cases hn : configName? fs [] with
      | none => rw [configAbove?_nil_of_none hn]; rfl
      | some n =>
          rw [configAbove?_of_some hn]
          show some (fs.locateAt ([.root] ++ [.name n])) = _
          rw [locateAt_config rfl hn]
          rfl
  | append_singleton rest c ih =>
      obtain ⟨count, rfl⟩ : ∃ k, count = k + 1 := ⟨count - 1, by omega⟩
      rw [upward_concat, List.findSome?_cons, configAt?_of_follow hfollow hdir]
      cases hn : configName? fs dir with
      | some n =>
          rw [configAbove?_of_some hn]
          show some (fs.locateAt ((.root :: (rest ++ [c])) ++ [.name n])) = _
          rw [locateAt_config hfollow hn]
          rfl
      | none =>
          obtain ⟨mid, es', hmid, hes', hbefore, hsame⟩ :=
            hpasses.step_back (hparts c (by simp)) hfollow hn
          rw [← hsame]
          exact ih (fun c hc => hparts c (List.mem_append_left _ hc)) hmid hes'
            (by simp at hcount; omega) hbefore

/-! ## Paths to a file -/

/-- A path to a file ends with the name of the file, below its directory. -/
theorem exists_front_of_locate (hfs : fs.Proper) {path : Text} {file : Place} {content : Content}
    (hlocate : fs.locate path = .ok file) (hfile : fs.root.find? file = some (.file content)) :
    ∃ front n dir es, components path = front ++ [.name n] ∧ file = dir ++ [n] ∧
      fs.follow fs.current.reverse front = .ok dir ∧
      fs.root.find? dir = some (.directory es) := by
  obtain ⟨hfollow, -⟩ := FileSystem.follow_of_locate hlocate
  obtain ⟨here, hhere⟩ := hfs.directory
  obtain ⟨top, htop⟩ := FileTree.find?_above (List.nil_prefix : [] <+: fs.current) hhere
  have hnotDirectory : ∀ es, fs.root.find? file ≠ some (.directory es) := by
    intro es hes
    rw [hfile] at hes
    exact absurd hes (by simp)
  rw [Path.components_eq] at hfollow ⊢
  rcases List.eq_nil_or_concat (Path.named path) with hnil | ⟨front, c, hlast⟩
  -- without parts, a path leads to the root or stays where it is
  · rw [hnil, List.append_nil] at hfollow
    have hplace : file = [] ∨ file = fs.current := by
      rcases Path.lead_cases path with ⟨-, -, hlead⟩ | ⟨-, hlead⟩ | ⟨hlead, -⟩
      · rw [hlead] at hfollow
        injection hfollow with h
        exact .inl h.symm
      · rw [hlead] at hfollow
        injection hfollow with h
        exact .inr (by rw [← h, List.reverse_reverse])
      · rw [hlead] at hfollow
        injection hfollow with h
        exact .inr (by rw [← h, List.reverse_reverse])
    rcases hplace with rfl | rfl
    · exact absurd htop (hnotDirectory top)
    · exact absurd hhere (hnotDirectory here)
  · rw [List.concat_eq_append] at hlast
    rw [hlast, ← List.append_assoc] at hfollow ⊢
    obtain ⟨dir, hdir, hstep⟩ := FileSystem.follow_concat hfollow
    have hc : c ∈ Path.named path := by
      rw [hlast]
      exact List.mem_append_right _ List.mem_cons_self
    rcases isPart_cases (Path.isPart_of_mem_named hc) with rfl | ⟨n, rfl⟩
    -- a `..` leads to a directory
    · obtain ⟨⟨es, hes⟩, hplace⟩ := FileSystem.follow_up hstep
      rw [List.reverse_reverse] at hes hplace
      obtain ⟨es', hes'⟩ := FileTree.find?_above (List.dropLast_prefix dir) hes
      exact absurd (hplace ▸ hes') (hnotDirectory es')
    · obtain ⟨es, hes, -, hplace⟩ := FileSystem.follow_name.mp hstep
      rw [List.reverse_reverse] at hes hplace
      exact ⟨_, n, dir, es, rfl, hplace, hdir, hes⟩

/-- The directories that the search for a file goes through, as components from the root. -/
theorem exists_rest_of_locate (hfs : fs.Proper) {path : Text} {file : Place} {content : Content}
    (hlocate : fs.locate path = .ok file) (hfile : fs.root.find? file = some (.file content)) :
    ∃ rest n dir es, components (Path.containing fs.currentPath path) = .root :: rest ∧
      (∀ c ∈ rest, c.IsPart) ∧ file = dir ++ [n] ∧ fs.follow [] rest = .ok dir ∧
      fs.root.find? dir = some (.directory es) ∧ (.up ∈ rest → .up ∈ components path) := by
  obtain ⟨front, n, dir, es, hpath, rfl, hdir, hes⟩ := exists_front_of_locate hfs hlocate hfile
  have hcurrent : components fs.currentPath = .root :: fs.current.map Component.name :=
    (FileSystem.plain_pathOf hfs.names).2
  have hcontaining := Path.components_containing
    ((Path.isAbsolute_iff fs.currentPath).mpr ⟨_, hcurrent⟩) hpath
  -- the current directory brings no `..` with it
  have hup : .up ∈ components (Path.containing fs.currentPath path) → .up ∈ components path := by
    intro hmem
    rw [hcontaining, hcurrent] at hmem
    rw [hpath]
    refine List.mem_append_left _ ?_
    unfold Path.fromRoot at hmem
    split at hmem
    · exact hmem
    · simpa using hmem
  have habsolute : ∃ cs, components (Path.containing fs.currentPath path) = .root :: cs := by
    rw [hcontaining, hcurrent]
    unfold Path.fromRoot
    split
    · rename_i hhead
      exact List.head?_eq_some_iff.mp hhead
    · exact ⟨_, rfl⟩
  -- so it is walked like the path itself, which leads to the directory
  have hwalk := hfs.follow_fromRoot front
  rw [hdir, ← hcontaining] at hwalk
  rcases Path.components_cases (Path.containing fs.currentPath path) with
    ⟨-, hparts⟩ | ⟨hrelative, -⟩
  · rw [hparts] at hwalk hup
    exact ⟨Path.named (Path.containing fs.currentPath path), n, dir, es, hparts,
      fun c => Path.isPart_of_mem_named, rfl, hwalk, hes,
      fun h => hup (List.mem_cons_of_mem _ h)⟩
  · rw [(Path.isAbsolute_iff _).mpr habsolute] at hrelative
    exact absurd hrelative (by simp)

/-- Components without `..` are the names on the way down. -/
theorem rest_eq_names {rest : List Component} {dir : Place} (hparts : ∀ c ∈ rest, c.IsPart)
    (hup : .up ∉ rest) (hfollow : fs.follow [] rest = .ok dir) :
    rest = dir.map Component.name := by
  have hnames : ∃ ns : List Text, rest = ns.map Component.name := by
    clear hfollow
    induction rest with
    | nil => exact ⟨[], rfl⟩
    | cons c rest ih =>
        obtain ⟨ns, rfl⟩ := ih (fun c hc => hparts c (List.mem_cons_of_mem _ hc))
          fun h => hup (List.mem_cons_of_mem _ h)
        rcases isPart_cases (hparts c List.mem_cons_self) with rfl | ⟨n, rfl⟩
        · exact absurd List.mem_cons_self hup
        · exact ⟨n :: ns, rfl⟩
  obtain ⟨ns, rfl⟩ := hnames
  rw [FileSystem.place_of_follow_names hfollow]
  rfl

theorem passesAbove_names (dir : Place) : PassesAbove fs (dir.map Component.name) dir := by
  intro front d hfront hd _
  obtain ⟨ns, hns, rfl⟩ := List.prefix_map_iff.mp hfront
  rw [FileSystem.place_of_follow_names hd]
  exact hns

theorem mem_upward_names {count : Nat} {dir : Place} {cs : List Component}
    (h : cs ∈ Path.upward count (.root :: dir.map Component.name)) :
    ∃ d, d <+: dir ∧ cs = .root :: d.map Component.name := by
  induction count generalizing dir with
  | zero => exact absurd h List.not_mem_nil
  | succ count ih =>
      rcases List.eq_nil_or_concat dir with rfl | ⟨d, n, rfl⟩
      · exact ⟨[], List.prefix_rfl, List.mem_singleton.mp h⟩
      · rw [List.concat_eq_append] at h ⊢
        rw [List.map_append] at h
        rcases List.mem_cons.mp (upward_concat count _ _ ▸ h) with rfl | h
        · exact ⟨d ++ [n], List.prefix_rfl, by rw [List.map_append]; rfl⟩
        · obtain ⟨d', hd', hcs⟩ := ih h
          exact ⟨d', hd'.trans (List.prefix_append _ _), hcs⟩

/-- What is found above a place lies above it, however far the search goes. -/
theorem locateAt_of_names {count : Nat} {dir : Place} {es : List (Text × FileTree)}
    (hdir : fs.root.find? dir = some (.directory es)) {cs : List Component}
    (h : (Path.upward count (.root :: dir.map Component.name)).findSome? (configAt? fs) = some cs) :
    ∃ d n, d <+: dir ∧ configName? fs d = some n ∧ fs.locateAt cs = .ok (d ++ [n]) := by
  obtain ⟨w, hw, hcs⟩ := List.exists_of_findSome?_eq_some h
  obtain ⟨d, hd, rfl⟩ := mem_upward_names hw
  obtain ⟨es', hes'⟩ := FileTree.find?_above hd hdir
  have hfollow : fs.follow fs.current.reverse (.root :: d.map Component.name) = .ok d :=
    @FileSystem.follow_names fs [] d _ hes'
  rw [configAt?_of_follow hfollow hes'] at hcs
  obtain ⟨n, hn, rfl⟩ := Option.map_eq_some_iff.mp hcs
  exact ⟨d, n, hd, hn, locateAt_config hfollow hn⟩

theorem locate_of_isConfigPath {path : Text} (h : IsConfigPath path) :
    fs.locate path = fs.locateAt (components path) := by
  obtain ⟨d, n, hn, rfl⟩ := h
  have hname := isName_of_mem_configNames hn
  obtain ⟨hne, hasks⟩ := Path.asksDirectory_join d hname.1 hname.2
  exact fs.locate_eq_locateAt hne hasks

theorem map_locate {source : Option Text} (h : ∀ path, source = some path → IsConfigPath path) :
    source.map fs.locate = (source.map components).map fs.locateAt := by
  cases source with
  | none => rfl
  | some path => exact congrArg some (locate_of_isConfigPath (h path rfl))

/-! ## Direct paths -/

/-- A path that has no `..`, or none that would mislead the search: it is short enough, and
every directory with a configuration that it passes is above the file. -/
def Direct (fs : FileSystem) (path : Text) (file : Place) : Prop :=
  .up ∉ components path ∨
    ∃ rest, components (Path.containing fs.currentPath path) = .root :: rest ∧
      rest.length < maxSearched ∧ PassesAbove fs rest file.dropLast

/-- The search for the configuration of a file that a direct path leads to: it finds the nearest
one above the file, if the search goes far enough, and follows the place in any case. -/
theorem Direct.search (hfs : fs.Proper) {path : Text} {file : Place} {content : Content}
    (hdirect : Direct fs path file) (hlocate : fs.locate path = .ok file)
    (hfile : fs.root.find? file = some (.file content)) :
    (file.length ≤ maxSearched →
      ((findConfig? fs (Path.containing fs.currentPath path)).map components).map fs.locateAt =
        (configAbove? fs file.dropLast).map .ok) ∧
    (maxSearched < file.length → components (Path.containing fs.currentPath path) =
      .root :: file.dropLast.map Component.name) := by
  obtain ⟨rest, n, dir, es, hrest, hparts, rfl, hfollow, hdir, hup⟩ :=
    exists_rest_of_locate hfs hlocate hfile
  have hdepth := FileSystem.length_of_follow hfollow
  rw [map_components_findConfig?, hrest, List.dropLast_concat, List.length_append]
  rcases hdirect with hno | ⟨rest', hrest', hshort, hpasses⟩
  · have hnames := rest_eq_names hparts (fun h => hno (hup h)) hfollow
    subst hnames
    refine ⟨fun hle => ?_, fun _ => rfl⟩
    exact findSome?_upward hparts hfollow hdir (by rw [List.length_map]; exact hle)
      (passesAbove_names dir)
  · rw [hrest] at hrest'
    injection hrest' with _ hsame
    subst hsame
    rw [List.dropLast_concat] at hpasses
    refine ⟨fun _ => findSome?_upward hparts hfollow hdir hshort hpasses, fun hlong => ?_⟩
    simp at hlong hdepth
    omega

/-- What the search finds along a direct path lies above the file. -/
theorem Direct.above (hfs : fs.Proper) {path : Text} {file : Place} {content : Content}
    (hdirect : Direct fs path file) (hlocate : fs.locate path = .ok file)
    (hfile : fs.root.find? file = some (.file content)) {found : Except PathError Place}
    (hfound : ((findConfig? fs (Path.containing fs.currentPath path)).map components).map
      fs.locateAt = some found) :
    ∃ dir n, dir <+: file.dropLast ∧ configName? fs dir = some n ∧ found = .ok (dir ++ [n]) := by
  obtain ⟨hnear, hfar⟩ := hdirect.search hfs hlocate hfile
  by_cases hshort : file.length ≤ maxSearched
  · rw [hnear hshort] at hfound
    obtain ⟨place, hplace, rfl⟩ := Option.map_eq_some_iff.mp hfound
    obtain ⟨dir, n, habove, hn, rfl⟩ := exists_of_configAbove? hplace
    exact ⟨dir, n, habove, hn, rfl⟩
  · rw [map_components_findConfig?, hfar (by omega)] at hfound
    obtain ⟨cs, hcs, rfl⟩ := Option.map_eq_some_iff.mp hfound
    have hdir : ∃ es, fs.root.find? file.dropLast = some (.directory es) := by
      rcases List.eq_nil_or_concat file with rfl | ⟨d, n, rfl⟩
      · exact absurd (Nat.zero_le maxSearched) hshort
      · rw [List.concat_eq_append] at hfile ⊢
        obtain ⟨es, hes, -⟩ := FileTree.find?_concat.mp hfile
        exact ⟨es, by rw [List.dropLast_concat]; exact hes⟩
    obtain ⟨es, hes⟩ := hdir
    exact locateAt_of_names hes hcs

end Project

namespace Resolver

open Project (Direct configName? configAbove?)

variable {fs : FileSystem}

/-- A resolver that has been asked for some files, without a configuration given in advance. -/
def asked (fs : FileSystem) (files : List Text) : Resolver :=
  files.foldl (fun r file => (r.vocabularyFor fs file).2) {}

theorem agrees_asked (fs : FileSystem) (files : List Text) :
    (asked fs files).Agrees fs ∧ (asked fs files).given = none := by
  have hstep : ∀ r : Resolver, r.Agrees fs ∧ r.given = none →
      (files.foldl (fun r file => (r.vocabularyFor fs file).2) r).Agrees fs ∧
        (files.foldl (fun r file => (r.vocabularyFor fs file).2) r).given = none := by
    induction files with
    | nil => exact fun r h => h
    | cons file files ih =>
        intro r h
        refine ih _ ⟨(vocabularyFor_of_agrees h.1 file).2, ?_⟩
        rw [given_vocabularyFor, h.2]
  exact hstep {} ⟨agrees_empty fs none, rfl⟩

/-- Where the configuration is that a resolver uses for a file, whatever it was asked before. -/
theorem map_locate_sourceFor (fs : FileSystem) (before : List Text) (path : Text) :
    ((asked fs before).sourceFor fs path).1.map fs.locate =
      ((Project.findConfig? fs (Path.containing fs.currentPath path)).map components).map
        fs.locateAt := by
  obtain ⟨hagrees, hnone⟩ := agrees_asked fs before
  obtain ⟨-, hsource, -, hsame⟩ := hagrees.sourceFor path
  rw [hnone] at hsource hsame
  have hconfig : ∀ p, ((asked fs before).sourceFor fs path).1 = some p →
      Project.IsConfigPath p := by
    rcases hsource with ⟨p, hgiven, -⟩ | ⟨-, h⟩
    · exact absurd hgiven (by simp)
    · exact h
  rw [Project.map_locate hconfig, hsame]
  rfl

/-- **A file has one configuration, however directly its path is spelled**, and that
configuration lies in a directory above the file. -/
theorem config_of_any_direct_path (hfs : fs.Proper) {file : Place} {content : Content}
    (hfile : fs.root.find? file = some (.file content)) {p q : Text}
    (hp : fs.locate p = .ok file) (hq : fs.locate q = .ok file)
    (hpDirect : Direct fs p file) (hqDirect : Direct fs q file) (before before' : List Text) :
    ((asked fs before).sourceFor fs p).1.map fs.locate =
      ((asked fs before').sourceFor fs q).1.map fs.locate ∧
    (∀ config, ((asked fs before).sourceFor fs p).1 = some config →
      ∃ dir n, dir <+: file.dropLast ∧ configName? fs dir = some n ∧
        fs.locate config = .ok (dir ++ [n])) ∧
    (file.length ≤ Project.maxSearched →
      ((asked fs before).sourceFor fs p).1.map fs.locate =
        (configAbove? fs file.dropLast).map .ok) := by
  rw [map_locate_sourceFor, map_locate_sourceFor]
  obtain ⟨hpNear, hpFar⟩ := hpDirect.search hfs hp hfile
  obtain ⟨hqNear, hqFar⟩ := hqDirect.search hfs hq hfile
  refine ⟨?_, ?_, hpNear⟩
  · by_cases hshort : file.length ≤ Project.maxSearched
    · rw [hpNear hshort, hqNear hshort]
    -- too deep for a `..`, so both paths spell the place itself
    · have hlong : Project.maxSearched < file.length := by omega
      rw [Project.map_components_findConfig?, Project.map_components_findConfig?, hpFar hlong,
        hqFar hlong]
  · intro config hconfig
    have hfound := map_locate_sourceFor fs before p
    rw [hconfig] at hfound
    exact hpDirect.above hfs hp hfile hfound.symm

/-- Two directories below the current one, and a configuration. -/
def twoSides (config : Text) : FileSystem :=
  ["a/y.html".toList, "b/x.html".toList, config].foldl (fun fs path => fs.create path .binary)
    (FileSystem.empty ["p".toList])

/-- The configuration is above both. -/
def sharedConfig : FileSystem := twoSides "tailwind.config.json".toList

/-- The configuration is in one of them. -/
def sideConfig : FileSystem := twoSides "a/tailwind.config.json".toList

theorem proper_twoSides (config : Text) (h : ∃ es,
    (twoSides config).root.find? ["p".toList] = some (.directory es)) : (twoSides config).Proper := by
  refine ⟨fun n hn => ?_, h⟩
  rw [List.mem_singleton.mp hn]
  exact ⟨by decide, by decide⟩

/-- A detour through a directory without a configuration finds the one above. -/
theorem config_of_any_direct_path_twoSides :
    ((asked sharedConfig []).sourceFor sharedConfig "b/x.html".toList).1.map sharedConfig.locate =
      ((asked sharedConfig ["b/x.html".toList]).sourceFor sharedConfig
        "a/../b/x.html".toList).1.map sharedConfig.locate ∧
    ((asked sharedConfig []).sourceFor sharedConfig "b/x.html".toList).1.map sharedConfig.locate =
      some (.ok ["p".toList, "tailwind.config.json".toList]) := by
  have hfs : sharedConfig.Proper := proper_twoSides _ ⟨_, rfl⟩
  have hpasses : Project.PassesAbove sharedConfig
      [.name ['p'], .name ['a'], .up, .name ['b']] [['p'], ['b']] := by
    intro front d hfront hd hsome
    have hmem := (List.mem_inits front _).mpr hfront
    simp only [List.inits, List.map_cons, List.map_nil, List.mem_cons, List.not_mem_nil,
      or_false] at hmem
    rcases hmem with rfl | rfl | rfl | rfl | rfl <;> (injection hd with hd; subst hd)
    · decide
    · decide
    -- the directory that is left again
    · have hnone : (configName? sharedConfig [['p'], ['a']]).isSome = false := by decide +kernel
      exact absurd (hnone.symm.trans hsome) (by decide)
    · decide
    · decide
  have hmain := @config_of_any_direct_path _ hfs ["p".toList, "b".toList, "x.html".toList] .binary
    rfl "b/x.html".toList "a/../b/x.html".toList (by decide +kernel) (by decide +kernel) (.inl (by decide))
    (.inr ⟨_, by decide +kernel, by decide, hpasses⟩) [] ["b/x.html".toList]
  exact ⟨hmain.1, (hmain.2.2 (by decide)).trans (by decide +kernel)⟩

/-- **A detour through a directory with a configuration finds that one**, which is not above the
file. -/
theorem config_of_detour :
    sideConfig.Proper ∧
    sideConfig.locate "b/x.html".toList = .ok ["p".toList, "b".toList, "x.html".toList] ∧
    sideConfig.locate "a/../b/x.html".toList = .ok ["p".toList, "b".toList, "x.html".toList] ∧
    ((asked sideConfig []).sourceFor sideConfig "b/x.html".toList).1 = none ∧
    ((asked sideConfig []).sourceFor sideConfig "a/../b/x.html".toList).1.map sideConfig.locate =
      some (.ok ["p".toList, "a".toList, "tailwind.config.json".toList]) ∧
    ¬ ["p".toList, "a".toList] <+: ["p".toList, "b".toList, "x.html".toList] :=
  ⟨proper_twoSides _ ⟨_, rfl⟩, by decide +kernel, by decide +kernel, by decide +kernel, by decide +kernel, by decide⟩

end Resolver

end ClassSort
