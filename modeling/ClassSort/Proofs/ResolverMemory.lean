import ClassSort.Proofs.ConfigSearch
import ClassSort.Proofs.PlainPaths

/-!
# What a resolver remembers

A resolver keeps two tables, from directories to configuration files and from configuration
files to what came of them. Both are read by components, and both only grow: **what a table
holds for a key is never replaced** (`sourceFor_keeps`, `fetch_keeps`), whatever happens to the
files between two questions.

The other half is about files that stay as they are. Then everything in the tables is what the
search and the reader would give now (`Resolver.Agrees`), and a full table answers like an empty
one (`vocabularyFor_of_agrees`). A directory or a file may be in the table under another
spelling, so an error may show that spelling: the answers are the same up to that
(`Resolution.Same`), and equal where all spellings are plain (`vocabularyFor_of_plain`).
-/

namespace ClassSort

namespace Resolver

open ClassSort.Path (Component components)

/-! ## Tables that only grow -/

/-- The configuration file that is remembered for a directory. -/
def knownSource? (r : Resolver) (dir : Text) : Option (Option Text) :=
  match r.given with
  | some path => some (some path)
  | none => (r.located.find? fun l => samePath l.1 dir).map Prod.snd

/-- What is remembered to have come of a configuration. -/
def known? (r : Resolver) (source : Option Text) : Option Resolution :=
  (r.resolved.find? fun s => sameSource s.1 source).map Prod.snd

/-- The configurations that something is remembered of, by their components. -/
def keys (r : Resolver) : List (Option (List Component)) :=
  r.resolved.map fun s => s.1.map components

theorem knownSource?_congr (r : Resolver) {d d' : Text} (h : components d = components d') :
    r.knownSource? d = r.knownSource? d' := by
  unfold knownSource? samePath
  rw [h]

theorem known?_congr (r : Resolver) {s t : Option Text} (h : s.map components = t.map components) :
    r.known? s = r.known? t := by
  have hsame : (fun e : Option Text × Resolution => sameSource e.1 s) =
      fun e => sameSource e.1 t := by
    funext e
    rw [Bool.eq_iff_iff, sameSource_iff, sameSource_iff, h]
  unfold known?
  rw [hsame]

/-- A remembered configuration file stands in the table under the same components. -/
theorem exists_located {r : Resolver} {dir : Text} {s : Option Text} (hnone : r.given = none)
    (h : r.knownSource? dir = some s) :
    ∃ l ∈ r.located, components l.1 = components dir ∧ l.2 = s := by
  unfold knownSource? at h
  rw [hnone] at h
  obtain ⟨l, hfind, hl⟩ := Option.map_eq_some_iff.mp h
  have hsame := List.find?_some hfind
  rw [samePath_iff] at hsame
  exact ⟨l, List.mem_of_find?_eq_some hfind, hsame, hl⟩

theorem exists_resolved {r : Resolver} {s : Option Text} {x : Resolution}
    (h : r.known? s = some x) :
    ∃ e ∈ r.resolved, e.1.map components = s.map components ∧ e.2 = x := by
  obtain ⟨e, hfind, he⟩ := Option.map_eq_some_iff.mp h
  have hsame := List.find?_some hfind
  rw [sameSource_iff] at hsame
  exact ⟨e, List.mem_of_find?_eq_some hfind, hsame, he⟩

theorem key_notMem_of_known? {r : Resolver} {s : Option Text} (h : r.known? s = none) :
    s.map components ∉ r.keys := by
  intro hmem
  obtain ⟨e, he, hsame⟩ := List.mem_map.mp hmem
  have hnone := List.find?_eq_none.mp (Option.map_eq_none_iff.mp h) e he
  exact hnone (sameSource_iff.mpr hsame)

/-- Asking for a configuration file gives what is remembered, or searches and remembers. -/
theorem sourceFor_cases (fs : FileSystem) (file : Text) (r : Resolver) :
    (r.knownSource? (Path.containing fs.currentPath file) = some (r.sourceFor fs file).1 ∧
        (r.sourceFor fs file).2 = r) ∨
      (r.given = none ∧ r.knownSource? (Path.containing fs.currentPath file) = none ∧
        (r.sourceFor fs file).1 =
          Project.findConfig? fs (Path.containing fs.currentPath file) ∧
        (r.sourceFor fs file).2 = { r with located := (Path.containing fs.currentPath file,
          Project.findConfig? fs (Path.containing fs.currentPath file)) :: r.located }) := by
  unfold sourceFor knownSource?
  cases hgiven : r.given with
  | some path => exact .inl ⟨rfl, rfl⟩
  | none =>
      dsimp only
      unfold locate
      cases hfind : r.located.find? fun l => samePath l.1 (Path.containing fs.currentPath file) with
      | some l => exact .inl ⟨rfl, rfl⟩
      | none => exact .inr ⟨rfl, rfl, rfl, by rw [← hgiven]⟩

/-- Asking what comes of a configuration gives what is remembered, or resolves and remembers. -/
theorem fetch_cases (fs : FileSystem) (source : Option Text) (r : Resolver) :
    (r.known? source = some (r.fetch fs source).1 ∧ (r.fetch fs source).2 = r) ∨
      (r.known? source = none ∧ (r.fetch fs source).1 = resolve fs source ∧
        (r.fetch fs source).2 = { r with
          resolved := (source, resolve fs source) :: r.resolved
          resolutions := r.resolutions + 1 }) := by
  unfold fetch known?
  cases hfind : r.resolved.find? fun s => sameSource s.1 source with
  | some s => exact .inl ⟨rfl, rfl⟩
  | none => exact .inr ⟨rfl, rfl, rfl⟩

/-- What is known about directories stays known, and now this directory is. -/
theorem sourceFor_keeps (fs : FileSystem) (file : Text) (r : Resolver) :
    (r.sourceFor fs file).2.knownSource? (Path.containing fs.currentPath file) =
        some (r.sourceFor fs file).1 ∧
      ∀ d s, r.knownSource? d = some s → (r.sourceFor fs file).2.knownSource? d = some s := by
  rcases sourceFor_cases fs file r with ⟨hknown, hsame⟩ | ⟨hgiven, hnew, hsource, hnext⟩
  · rw [hsame]
    exact ⟨hknown, fun d s h => h⟩
  · rw [hnext, hsource]
    constructor
    · unfold knownSource?
      rw [hgiven]
      dsimp only
      rw [List.find?_cons, samePath_iff.mpr rfl]
      rfl
    · intro d s h
      -- a directory that is known is not the new one
      have hother : samePath (Path.containing fs.currentPath file) d = false := by
        rw [Bool.eq_false_iff]
        intro hsame
        rw [knownSource?_congr r (samePath_iff.mp hsame), h] at hnew
        exact absurd hnew (by simp)
      unfold knownSource? at h ⊢
      rw [hgiven] at h ⊢
      dsimp only at h ⊢
      rw [List.find?_cons, hother]
      exact h

/-- What is known about configurations stays known, and now this one is. -/
theorem fetch_keeps (fs : FileSystem) (source : Option Text) (r : Resolver) :
    (r.fetch fs source).2.known? source = some (r.fetch fs source).1 ∧
      ∀ s x, r.known? s = some x → (r.fetch fs source).2.known? s = some x := by
  rcases fetch_cases fs source r with ⟨hknown, hsame⟩ | ⟨hnew, hresult, hnext⟩
  · rw [hsame]
    exact ⟨hknown, fun s x h => h⟩
  · rw [hnext, hresult]
    constructor
    · unfold known?
      dsimp only
      rw [List.find?_cons, sameSource_iff.mpr rfl]
      rfl
    · intro s x h
      have hother : sameSource source s = false := by
        rw [Bool.eq_false_iff]
        intro hsame
        rw [known?_congr r (sameSource_iff.mp hsame), h] at hnew
        exact absurd hnew (by simp)
      unfold known? at h ⊢
      dsimp only
      rw [List.find?_cons, hother]
      exact h

/-- The vocabulary for a file is fetched for the configuration file that is found. -/
theorem vocabularyFor_eq (fs : FileSystem) (file : Text) (r : Resolver) :
    r.vocabularyFor fs file = (r.sourceFor fs file).2.fetch fs (r.sourceFor fs file).1 := rfl

/-- The search for a configuration file leaves everything else alone. -/
theorem sourceFor_frame (fs : FileSystem) (file : Text) (r : Resolver) :
    (r.sourceFor fs file).2.given = r.given ∧ (r.sourceFor fs file).2.resolved = r.resolved ∧
      (r.sourceFor fs file).2.resolutions = r.resolutions := by
  rcases sourceFor_cases fs file r with ⟨-, hsame⟩ | ⟨-, -, -, hnext⟩
  · rw [hsame]
    exact ⟨rfl, rfl, rfl⟩
  · rw [hnext]
    exact ⟨rfl, rfl, rfl⟩

theorem fetch_frame (fs : FileSystem) (source : Option Text) (r : Resolver) :
    (r.fetch fs source).2.given = r.given ∧ (r.fetch fs source).2.located = r.located := by
  rcases fetch_cases fs source r with ⟨-, hsame⟩ | ⟨-, -, hnext⟩
  · rw [hsame]
    exact ⟨rfl, rfl⟩
  · rw [hnext]
    exact ⟨rfl, rfl⟩

theorem given_vocabularyFor (fs : FileSystem) (file : Text) (r : Resolver) :
    (r.vocabularyFor fs file).2.given = r.given := by
  rw [vocabularyFor_eq, (fetch_frame _ _ _).1, (sourceFor_frame _ _ _).1]

/-- A question about a configuration adds its key, if that is new. -/
theorem keys_fetch (fs : FileSystem) (source : Option Text) (r : Resolver) :
    (source.map components ∈ r.keys ∧ (r.fetch fs source).2.keys = r.keys ∧
        (r.fetch fs source).2.resolutions = r.resolutions) ∨
      (source.map components ∉ r.keys ∧
        (r.fetch fs source).2.keys = source.map components :: r.keys ∧
        (r.fetch fs source).2.resolutions = r.resolutions + 1) := by
  rcases fetch_cases fs source r with ⟨hknown, hsame⟩ | ⟨hnew, -, hnext⟩
  · obtain ⟨e, hmem, hkey, -⟩ := exists_resolved hknown
    rw [hsame]
    exact .inl ⟨List.mem_map.mpr ⟨e, hmem, hkey⟩, rfl, rfl⟩
  · rw [hnext]
    exact .inr ⟨key_notMem_of_known? hnew, rfl, rfl⟩

/-- What a resolver has learned from a question about a directory that was answered from a source
with a result. -/
structure Learns (dir : Text) (source : Option Text) (result : Resolution) (r r' : Resolver) :
    Prop where
  given_eq : r'.given = r.given
  answered : r'.known? source = some result
  frozen : ∀ t x, r.known? t = some x → r'.known? t = some x
  located : r'.knownSource? dir = some source
  frozenSources : ∀ d t, r.knownSource? d = some t → r'.knownSource? d = some t
  keys : (source.map components ∈ r.keys ∧ r'.keys = r.keys ∧ r'.resolutions = r.resolutions) ∨
    (source.map components ∉ r.keys ∧ r'.keys = source.map components :: r.keys ∧
      r'.resolutions = r.resolutions + 1)

/-- **A question only adds to what is remembered.** -/
theorem learns_vocabularyFor (fs : FileSystem) (file : Text) (r : Resolver) :
    Learns (Path.containing fs.currentPath file) (r.sourceFor fs file).1
      (r.vocabularyFor fs file).1 r (r.vocabularyFor fs file).2 := by
  obtain ⟨-, hresolved, hcount⟩ := sourceFor_frame fs file r
  obtain ⟨hsource, hsources⟩ := sourceFor_keeps fs file r
  have hgiven := given_vocabularyFor fs file r
  rw [vocabularyFor_eq] at hgiven ⊢
  generalize (r.sourceFor fs file).1 = source at *
  generalize (r.sourceFor fs file).2 = r₁ at *
  obtain ⟨hgiven₁, hlocated₁⟩ := fetch_frame fs source r₁
  obtain ⟨hresult, hresults⟩ := fetch_keeps fs source r₁
  have hknown : ∀ t, r₁.known? t = r.known? t := fun t => by unfold known?; rw [hresolved]
  have hkeys : r₁.keys = r.keys := by unfold keys; rw [hresolved]
  have hknownSource : ∀ d, (r₁.fetch fs source).2.knownSource? d = r₁.knownSource? d :=
    fun d => by unfold knownSource?; rw [hgiven₁, hlocated₁]
  refine ⟨hgiven, hresult, fun t x ht => hresults t x (by rw [hknown, ht]),
    by rw [hknownSource, hsource], fun d t ht => by rw [hknownSource, hsources d t ht], ?_⟩
  rw [← hkeys, ← hcount]
  exact keys_fetch fs source r₁

/-- A configuration file that is given answers every question about configuration files. -/
theorem sourceFor_of_given {r : Resolver} {path : Text} (h : r.given = some path)
    (fs : FileSystem) (file : Text) : (r.sourceFor fs file).1 = some path := by
  unfold sourceFor
  rw [h]

/-! ## Files that stay as they are -/

/-- What a resolver that remembers nothing answers. -/
def anew (fs : FileSystem) (given : Option Text) (file : Text) : Resolution :=
  (({ given } : Resolver).vocabularyFor fs file).1

/-- The configuration file that is used for a file by a resolver that remembers nothing. -/
def sourceAnew (fs : FileSystem) (given : Option Text) (file : Text) : Option Text :=
  (({ given } : Resolver).sourceFor fs file).1

theorem anew_eq (fs : FileSystem) (given : Option Text) (file : Text) :
    anew fs given file = resolve fs (sourceAnew fs given file) := by
  unfold anew sourceAnew
  rw [vocabularyFor_eq]
  have hempty : (({ given } : Resolver).sourceFor fs file).2.resolved = [] :=
    (sourceFor_frame fs file _).2.1
  rcases fetch_cases fs (({ given } : Resolver).sourceFor fs file).1
      (({ given } : Resolver).sourceFor fs file).2 with ⟨hknown, -⟩ | ⟨-, hresult, -⟩
  · unfold known? at hknown
    rw [hempty] at hknown
    exact absurd hknown (by simp)
  · exact hresult

/-- What can be a configuration, in view of the one that is given. -/
def IsSource (given source : Option Text) : Prop :=
  (∃ path, given = some path ∧ source = some path) ∨
    (given = none ∧ ∀ path, source = some path → Project.IsConfigPath path)

/-- Everything that is remembered is what would be found now. -/
structure Agrees (fs : FileSystem) (r : Resolver) : Prop where
  located : ∀ l ∈ r.located, l.2 = Project.findConfig? fs l.1
  resolved : ∀ s ∈ r.resolved, s.2 = resolve fs s.1
  sources : ∀ s ∈ r.resolved, IsSource r.given s.1

theorem agrees_empty (fs : FileSystem) (given : Option Text) : Agrees fs { given } :=
  ⟨by simp, by simp, by simp⟩

theorem IsSource.same_resolve {given s t : Option Text} (hs : IsSource given s)
    (ht : IsSource given t) (h : s.map components = t.map components) (fs : FileSystem) :
    Resolution.Same (resolve fs s) (resolve fs t) := by
  rcases hs with ⟨path, hgiven, rfl⟩ | ⟨hnone, hs⟩
  · rcases ht with ⟨path', hgiven', rfl⟩ | ⟨hnone, -⟩
    · rw [hgiven] at hgiven'
      rw [hgiven']
      exact .refl _
    · rw [hgiven] at hnone
      exact absurd hnone (by simp)
  · rcases ht with ⟨path, hgiven, -⟩ | ⟨-, ht⟩
    · rw [hgiven] at hnone
      exact absurd hnone (by simp)
    · exact Resolver.same_resolve fs hs ht h

theorem isSource_findConfig? (fs : FileSystem) (dir : Text) :
    IsSource none (Project.findConfig? fs dir) :=
  .inr ⟨rfl, fun _ => Project.isConfigPath_of_findConfig?⟩

/-- A remembered configuration file is the one that a search would find. -/
theorem Agrees.sourceFor {fs : FileSystem} {r : Resolver} (h : r.Agrees fs) (file : Text) :
    (r.sourceFor fs file).2.Agrees fs ∧ IsSource r.given (r.sourceFor fs file).1 ∧
      IsSource r.given (sourceAnew fs r.given file) ∧
      (r.sourceFor fs file).1.map components = (sourceAnew fs r.given file).map components := by
  obtain ⟨hgiven, hresolved, -⟩ := sourceFor_frame fs file r
  cases hr : r.given with
  | some path =>
      have hanew : sourceAnew fs (some path) file = some path := sourceFor_of_given rfl fs file
      rw [sourceFor_of_given hr, hanew]
      refine ⟨?_, .inl ⟨path, rfl, rfl⟩, .inl ⟨path, rfl, rfl⟩, rfl⟩
      rcases sourceFor_cases fs file r with ⟨-, hsame⟩ | ⟨hnone, -⟩
      · rw [hsame]
        exact h
      · rw [hr] at hnone
        exact absurd hnone (by simp)
  | none =>
      have hanew : sourceAnew fs none file =
          Project.findConfig? fs (Path.containing fs.currentPath file) := rfl
      rw [hanew]
      have hsearched := isSource_findConfig? fs (Path.containing fs.currentPath file)
      rcases sourceFor_cases fs file r with ⟨hknown, hsame⟩ | ⟨-, -, hsource, hnext⟩
      · -- the directory is in the table, perhaps under another spelling
        obtain ⟨l, hmem, hdir, hl⟩ := exists_located hr hknown
        rw [hsame, ← hl, h.located l hmem]
        refine ⟨h, isSource_findConfig? fs l.1, hsearched, ?_⟩
        rw [Project.map_components_findConfig?, Project.map_components_findConfig?, hdir]
      · rw [hsource, hnext]
        refine ⟨⟨?_, h.resolved, h.sources⟩, hsearched, hsearched, rfl⟩
        intro l hl
        rcases List.mem_cons.mp hl with rfl | hl
        · rfl
        · exact h.located l hl

/-- What is remembered of a configuration is what would come of it. -/
theorem Agrees.fetch {fs : FileSystem} {r : Resolver} (h : r.Agrees fs) {source : Option Text}
    (hsource : IsSource r.given source) :
    (r.fetch fs source).2.Agrees fs ∧ ∃ s, IsSource r.given s ∧
      s.map components = source.map components ∧ (r.fetch fs source).1 = resolve fs s := by
  rcases fetch_cases fs source r with ⟨hknown, hsame⟩ | ⟨-, hresult, hnext⟩
  · obtain ⟨e, hmem, hkey, he⟩ := exists_resolved hknown
    rw [hsame, ← he]
    exact ⟨h, e.1, h.sources e hmem, hkey, h.resolved e hmem⟩
  · rw [hresult, hnext]
    refine ⟨⟨h.located, ?_, ?_⟩, source, hsource, rfl, rfl⟩
    · intro s hs
      rcases List.mem_cons.mp hs with rfl | hs
      · rfl
      · exact h.resolved s hs
    · intro s hs
      rcases List.mem_cons.mp hs with rfl | hs
      · exact hsource
      · exact h.sources s hs

/-- **While files stay as they are, a resolver answers like one that remembers nothing.** -/
theorem vocabularyFor_of_agrees {fs : FileSystem} {r : Resolver} (h : r.Agrees fs) (file : Text) :
    Resolution.Same (r.vocabularyFor fs file).1 (anew fs r.given file) ∧
      (r.vocabularyFor fs file).2.Agrees fs := by
  obtain ⟨hagrees, hsource, hanew, hsame⟩ := h.sourceFor file
  have hgiven := (sourceFor_frame fs file r).1
  obtain ⟨hnext, s, hs, hkey, hresult⟩ := hagrees.fetch (hgiven.symm ▸ hsource)
  rw [hgiven] at hs
  rw [vocabularyFor_eq, hresult, anew_eq]
  exact ⟨hs.same_resolve hanew (hkey.trans hsame) fs, hnext⟩

/-! ## Plain spellings -/

theorem plain_findConfig? {fs : FileSystem} {dir path : Text} (hdir : Path.Plain dir)
    (h : Project.findConfig? fs dir = some path) : Path.Plain path := by
  obtain ⟨d, hd, hfind⟩ := List.exists_of_findSome?_eq_some h
  obtain ⟨n, hn, rfl⟩ := List.mem_map.mp (List.mem_of_find?_eq_some hfind)
  have hname := Project.isName_of_mem_configNames hn
  exact .join (hdir.ancestors _ hd) hname.1 hname.2

/-- Everything that was found is spelled plainly. -/
structure SpelledPlainly (r : Resolver) : Prop where
  located : ∀ l ∈ r.located, Path.Plain l.1
  sources : r.given = none → ∀ s ∈ r.resolved, ∀ path, s.1 = some path → Path.Plain path

theorem spelledPlainly_empty (given : Option Text) : SpelledPlainly { given } :=
  ⟨by simp, by simp⟩

/-- The table has a plain directory under its one plain spelling. -/
theorem sourceFor_of_plain {fs : FileSystem} {r : Resolver} (h : r.Agrees fs)
    (hplain : r.SpelledPlainly) {file : Text}
    (hdir : Path.Plain (Path.containing fs.currentPath file)) :
    (r.sourceFor fs file).1 = sourceAnew fs r.given file ∧
      (r.sourceFor fs file).2.SpelledPlainly := by
  rcases sourceFor_cases fs file r with ⟨hknown, hsame⟩ | ⟨hnone, -, hsource, hnext⟩
  · rw [hsame]
    refine ⟨?_, hplain⟩
    cases hr : r.given with
    | some path => rw [sourceFor_of_given hr, sourceAnew, sourceFor_of_given rfl]
    | none =>
        obtain ⟨l, hmem, hcomponents, hl⟩ := exists_located hr hknown
        rw [← hl, h.located l hmem, (hplain.located l hmem).eq_of_components hdir hcomponents]
        rfl
  · rw [hsource, hnext]
    refine ⟨by rw [hnone]; rfl, ?_, hplain.sources⟩
    intro l hl
    rcases List.mem_cons.mp hl with rfl | hl
    · exact hdir
    · exact hplain.located l hl

/-- **Where all paths are spelled plainly, the answers are equal**, those with an error too. -/
theorem vocabularyFor_of_plain {fs : FileSystem} {r : Resolver} (h : r.Agrees fs)
    (hplain : r.SpelledPlainly) {file : Text}
    (hdir : Path.Plain (Path.containing fs.currentPath file)) :
    (r.vocabularyFor fs file).1 = anew fs r.given file ∧
      (r.vocabularyFor fs file).2.SpelledPlainly := by
  obtain ⟨hsource, hplain₁⟩ := sourceFor_of_plain h hplain hdir
  obtain ⟨hagrees, -⟩ := h.sourceFor file
  have hgiven := (sourceFor_frame fs file r).1
  rw [vocabularyFor_eq, anew_eq, hsource]
  have hfound : r.given = none → ∀ path, sourceAnew fs r.given file = some path →
      Path.Plain path := by
    intro hnone path hpath
    rw [hnone] at hpath
    exact plain_findConfig? hdir hpath
  rcases fetch_cases fs (sourceAnew fs r.given file) (r.sourceFor fs file).2 with
    ⟨hknown, hsame⟩ | ⟨-, hresult, hnext⟩
  · rw [hsame]
    refine ⟨?_, hplain₁⟩
    obtain ⟨e, hmem, hhit, he⟩ := exists_resolved hknown
    rw [← he, hagrees.resolved e hmem]
    -- one configuration has one spelling: it was given, or it was found and is plain
    cases hr : r.given with
    | some path =>
        rcases hagrees.sources e hmem with ⟨path', hpath', hsome⟩ | ⟨hnone, -⟩
        · rw [hgiven, hr] at hpath'
          rw [hsome, sourceAnew, sourceFor_of_given rfl, hpath']
        · rw [hgiven, hr] at hnone
          exact absurd hnone (by simp)
    | none =>
        rw [hr] at hhit hfound
        have hold := hplain₁.sources (hgiven.trans hr) e hmem
        cases hkey : e.1 with
        | none =>
            cases hnew : sourceAnew fs none file with
            | none => rfl
            | some path =>
                rw [hkey, hnew] at hhit
                exact absurd hhit (by simp)
        | some path =>
            cases hnew : sourceAnew fs none file with
            | none =>
                rw [hkey, hnew] at hhit
                exact absurd hhit (by simp)
            | some path' =>
                rw [hkey, hnew] at hhit
                rw [(hold path hkey).eq_of_components (hfound rfl path' hnew) (Option.some.inj hhit)]
  · rw [hresult, hnext]
    refine ⟨rfl, hplain₁.located, ?_⟩
    intro hnone s hs path hpath
    rcases List.mem_cons.mp hs with rfl | hs
    · exact hfound (hgiven ▸ hnone) path hpath
    · exact hplain₁.sources hnone s hs path hpath

end Resolver

end ClassSort
