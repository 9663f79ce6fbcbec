import ClassSort.Project.Resolver
import ClassSort.Proofs.PathComponents

/-!
# The search for a configuration, by components

What a path leads to depends on its components and on whether it asks for a directory. A path
with the name of a configuration file at its end never does, so the whole search can be told in
components: `map_components_findConfig?` says which components the file found has, given those
of the directory where the search begins.

What comes of a configuration file depends on its components too, except that an error holds
the path as it was spelled. `Resolution.Same` is equality up to that spelling.
-/

namespace ClassSort

/-! ## Files by components -/

namespace FileSystem

/-- What components lead to. -/
def getAt (fs : FileSystem) (cs : List Path.Component) : Except PathError FileTree := do
  let place ← follow fs fs.current.reverse cs
  match fs.root.find? place with
  | some t => return t
  | none => .error .notFound

theorem get_eq_getAt (fs : FileSystem) {path : Text} (hne : path ≠ [])
    (hasks : asksDirectory path = false) : fs.get path = fs.getAt (Path.components path) := by
  have hnonempty : path.isEmpty = false := by simpa using hne
  unfold get getAt locate
  rw [hnonempty, hasks]
  cases hfollow : follow fs fs.current.reverse (Path.components path) with
  | error e => rfl
  | ok place =>
      cases hfind : fs.root.find? place with
      | none => simp [bind, Except.bind, hfind]
      | some t => cases t <;> simp [bind, Except.bind, pure, Except.pure, hfind]

end FileSystem

namespace Path

/-- A path with a part at its end asks for no directory. -/
theorem asksDirectory_join {part : Text} {c : Component} (d : Text) (hslash : '/' ∉ part)
    (hc : ofPart? part = some c) :
    join d part ≠ [] ∧ FileSystem.asksDirectory (join d part) = false := by
  obtain ⟨hne, hpoint, -⟩ := ofPart?_eq_some hc
  have hlast : ∃ ps, splitParts (join d part) = ps ++ [part] := by
    have hbehind : ∀ d' : Text, ∃ ps, splitParts (d' ++ '/' :: part) = ps ++ [part] := by
      intro d'
      rw [splitParts_append, splitParts_of_notMem hslash]
      exact ⟨_, rfl⟩
    unfold join
    split
    · exact ⟨[], splitParts_of_notMem hslash⟩
    · split
      · rename_i hend
        obtain ⟨d', rfl⟩ := List.getLast?_eq_some_iff.mp (by simpa using hend)
        rw [List.append_assoc]
        exact hbehind d'
      · exact hbehind d
  obtain ⟨ps, hps⟩ := hlast
  constructor
  · intro hnil
    have hcomponents := components_join d hslash hc
    rw [hnil] at hcomponents
    exact absurd hcomponents.symm (by simp [components, lead, ofLead, splitParts, ofPart?])
  · unfold FileSystem.asksDirectory
    rw [hps]
    simp [hne, hpoint]

end Path

namespace Project

open ClassSort.Path (Component components)

theorem isName_of_mem_configNames {n : Text} (h : n ∈ configNames) : Path.IsName n := by
  rcases List.mem_cons.mp h with rfl | h
  · exact ⟨by decide, by decide⟩
  · rw [List.mem_singleton.mp h]
    exact ⟨by decide, by decide⟩

/-- Whether components lead to a file. -/
def isFileAt (fs : FileSystem) (cs : List Component) : Bool :=
  match fs.getAt cs with
  | .ok (.file _) => true
  | _ => false

/-- The components of the configuration file in a directory with given components. -/
def configAt? (fs : FileSystem) (dir : List Component) : Option (List Component) :=
  (configNames.map fun n => dir ++ [.name n]).find? (isFileAt fs)

theorem isFile_join (fs : FileSystem) (d : Text) {n : Text} (h : n ∈ configNames) :
    fs.isFile (Path.join d n) = isFileAt fs (components d ++ [.name n]) := by
  have hname := isName_of_mem_configNames h
  obtain ⟨hne, hasks⟩ := Path.asksDirectory_join d hname.1 hname.2
  have hget : fs.get (Path.join d n) = fs.getAt (components d ++ [.name n]) := by
    rw [fs.get_eq_getAt hne hasks, Path.components_join d hname.1 hname.2]
  unfold FileSystem.isFile isFileAt
  exact hget ▸ rfl

/-- One directory of the search. -/
theorem map_components_find? (fs : FileSystem) (d : Text) :
    ((configNames.map (Path.join d)).find? fs.isFile).map components =
      configAt? fs (components d) := by
  unfold configAt?
  have hall : ∀ names : List Text, (∀ n ∈ names, n ∈ configNames) →
      ((names.map (Path.join d)).find? fs.isFile).map components =
        (names.map fun n => components d ++ [.name n]).find? (isFileAt fs) := by
    intro names
    induction names with
    | nil => exact fun _ => rfl
    | cons n names ih =>
        intro h
        obtain ⟨hn, hnames⟩ := List.forall_mem_cons.mp h
        have hname := isName_of_mem_configNames hn
        rw [List.map_cons, List.map_cons, List.find?_cons, List.find?_cons, isFile_join fs d hn]
        cases isFileAt fs (components d ++ [.name n]) with
        | true =>
            rw [← Path.components_join d hname.1 hname.2]
            rfl
        | false => exact ih hnames
  exact hall configNames fun _ => id

/-- **The search sees only components.** -/
theorem map_components_findConfig? (fs : FileSystem) (dir : Text) :
    (findConfig? fs dir).map components =
      (Path.upward maxSearched (components dir)).findSome? (configAt? fs) := by
  unfold findConfig?
  rw [← Path.map_components_ancestors, List.map_findSome?, List.findSome?_map]
  congr 1
  funext d
  exact map_components_find? fs d

/-- A path that ends with the name of a configuration file. -/
def IsConfigPath (path : Text) : Prop := ∃ d, ∃ n ∈ configNames, path = Path.join d n

theorem isConfigPath_of_findConfig? {fs : FileSystem} {dir path : Text}
    (h : findConfig? fs dir = some path) : IsConfigPath path := by
  obtain ⟨d, -, hd⟩ := List.exists_of_findSome?_eq_some h
  obtain ⟨n, hn, rfl⟩ := List.mem_map.mp (List.mem_of_find?_eq_some hd)
  exact ⟨d, n, hn, rfl⟩

end Project

/-! ## What comes of a configuration file -/

/-- The same error, except for how the path in it is spelled. -/
inductive Error.Same : Error → Error → Prop where
  | refl (e : Error) : Same e e
  | io {p q : Text} (h : Path.components p = Path.components q) (reason : Text) :
      Same (.io p reason) (.io q reason)
  | configNotFound {p q : Text} (h : Path.components p = Path.components q) :
      Same (.configNotFound p) (.configNotFound q)
  | configParse {p q : Text} (h : Path.components p = Path.components q) (reason : Text) :
      Same (.configParse p reason) (.configParse q reason)
  | unsupportedFormat {p q : Text} (h : Path.components p = Path.components q) :
      Same (.unsupportedFormat p) (.unsupportedFormat q)

/-- The same vocabulary, or the same error except for how the path in it is spelled. -/
inductive Resolution.Same : Resolution → Resolution → Prop where
  | found (v : Vocabulary) : Same (.ok v) (.ok v)
  | failed {e e' : Error} (h : e.Same e') : Same (.error e) (.error e')

theorem Resolution.Same.refl (r : Resolution) : Resolution.Same r r := by
  cases r with
  | ok v => exact .found v
  | error e => exact .failed (.refl e)

namespace Resolver

open ClassSort.Path (components)

theorem samePath_iff {p q : Text} : samePath p q = true ↔ components p = components q := by
  simp [samePath]

theorem sameSource_iff {s t : Option Text} :
    sameSource s t = true ↔ s.map components = t.map components := by
  cases s <;> cases t <;> simp [sameSource, samePath]

theorem same_loadConfig (fs : FileSystem) {p q : Text} (hp : Project.IsConfigPath p)
    (hq : Project.IsConfigPath q) (h : components p = components q) :
    Resolution.Same ((Project.loadConfig fs p).map Vocabulary.ofConfig)
      ((Project.loadConfig fs q).map Vocabulary.ofConfig) := by
  have hread : ∀ {p : Text}, Project.IsConfigPath p → fs.get p = fs.getAt (components p) := by
    rintro p ⟨d, n, hn, rfl⟩
    have hname := Project.isName_of_mem_configNames hn
    obtain ⟨hne, hasks⟩ := Path.asksDirectory_join d hname.1 hname.2
    exact fs.get_eq_getAt hne hasks
  have htext : fs.readText p = fs.readText q := by
    unfold FileSystem.readText
    rw [hread hp, hread hq, h]
  have hformat : Config.Format.ofPath? p = Config.Format.ofPath? q := by
    unfold Config.Format.ofPath? Path.extension? Path.fileName?
    rw [h]
  unfold Project.loadConfig
  rw [hformat, htext]
  cases Config.Format.ofPath? q with
  | none => exact .failed (.unsupportedFormat h)
  | some format =>
      cases fs.readText q with
      | error e =>
          cases e with
          | notFound => exact .failed (.configNotFound h)
          | unreadable => exact .failed (.io h _)
      | ok contents =>
          dsimp only
          cases Config.parse? format contents with
          | none => exact .failed (.configParse h _)
          | some c => exact .found _

/-- **What comes of a configuration depends on its components.** -/
theorem same_resolve (fs : FileSystem) {s t : Option Text}
    (hs : ∀ p, s = some p → Project.IsConfigPath p) (ht : ∀ p, t = some p → Project.IsConfigPath p)
    (h : s.map components = t.map components) :
    Resolution.Same (resolve fs s) (resolve fs t) := by
  cases s with
  | none =>
      cases t with
      | none => exact .refl _
      | some q => exact absurd h (by simp)
  | some p =>
      cases t with
      | none => exact absurd h (by simp)
      | some q => exact same_loadConfig fs (hs p rfl) (ht q rfl) (Option.some.inj h)

end Resolver

end ClassSort
