import Mathlib.Data.List.Forall2
import ClassSort.Project.Run
import ClassSort.Proofs.DisjointUnits
import ClassSort.Proofs.Overwriting
import ClassSort.Proofs.ResolverMemory

/-!
# The files of a run are formatted as if each were alone

One formatter serves all files of a run, and hands on what its resolver found. Since nothing is
written before every file is formatted, all that the resolver remembers is what it would find
again (`Resolver.Agrees`), so each file comes out as with a formatter that is new
(`same_outcomes`). A file that fails, fails alone and for its own cause.

Afterwards a run that writes overwrites the changed files one by one. No write moves a file, so
each goes where its path led at first, and **where several paths lead to one file the last one
wins** (`foldl_written`).
-/

namespace ClassSort

/-! ## A formatter without its notes -/

theorem Parser.parse_total (p : Parser) (source : Text) : p.parse .total source = .ok ⟨p, source⟩ :=
  rfl

namespace Formatter

theorem fst_sortNoted (p : Parser) (r : Ranking) (source : Text) (m : Monitor) :
    (sortNoted .total p r source m).1 = .ok ((p.sortClasses r source).getD source) := by
  unfold sortNoted Monitor.within Parser.sortClasses
  rw [Parser.parse_total]
  dsimp only [SourceTree.units]
  cases p.language.units source with
  | nil => rfl
  | cons u us => rfl

/-- What comes of a source depends on the vocabulary for its path. -/
theorem fst_format (fs : FileSystem) (f : Formatter) (p : Parser) (path source : Text) :
    (f.format fs p path source).1 =
      (f.resolver.vocabularyFor fs path).1.map fun v =>
        (p.sortClasses v.rank source).getD source := by
  unfold format formatWith Monitor.within
  dsimp only
  cases hfound : (f.resolver.vocabularyFor fs path).1 with
  | error e => rfl
  | ok v => exact fst_sortNoted p v.rank source _

theorem resolver_format (fs : FileSystem) (f : Formatter) (p : Parser) (path source : Text) :
    (f.format fs p path source).2.resolver = (f.resolver.vocabularyFor fs path).2 := by
  unfold format formatWith Monitor.within
  dsimp only
  cases hfound : (f.resolver.vocabularyFor fs path).1 with
  | error e => rfl
  | ok v => rfl

end Formatter

namespace Project

open CommandLine (Mode RunPlan)

/-! ## One file among others -/

/-- What comes of a file with some vocabulary, or with an error in its configuration. -/
def attemptWith (fs : FileSystem) (forced : Option Parser) (path : Text) (found : Resolution) :
    Attempt :=
  match forced.or (Parser.ofPath? path), fs.readText path with
  | none, _ => .error ⟨path, .noParser⟩
  | some _, .error reason => .error ⟨path, .unread reason⟩
  | some p, .ok before =>
    match found with
    | .ok v => .ok ⟨path, before, (p.sortClasses v.rank before).getD before⟩
    | .error e => .error ⟨path, .error e⟩

theorem attemptWith_ok {fs : FileSystem} {forced : Option Parser} {path before : Text} {p : Parser}
    (hp : forced.or (Parser.ofPath? path) = some p) (hread : fs.readText path = .ok before)
    (v : Vocabulary) : attemptWith fs forced path (.ok v) =
      .ok ⟨path, before, (p.sortClasses v.rank before).getD before⟩ := by
  rw [attemptWith, hp, hread]

/-- A formatter has its part in a file by what its resolver finds. It either asks the resolver or
leaves it as it is. -/
theorem formatFile_eq (fs : FileSystem) (forced : Option Parser) (f : Formatter) (path : Text) :
    (formatFile fs forced f path).1 =
        attemptWith fs forced path (f.resolver.vocabularyFor fs path).1 ∧
      ((formatFile fs forced f path).2.resolver = f.resolver ∨
        (formatFile fs forced f path).2.resolver = (f.resolver.vocabularyFor fs path).2) := by
  unfold formatFile attemptWith
  cases forced.or (Parser.ofPath? path) with
  | none => exact ⟨rfl, .inl rfl⟩
  | some p =>
      cases fs.readText path with
      | error reason => exact ⟨rfl, .inl rfl⟩
      | ok before =>
          refine ⟨?_, .inr (Formatter.resolver_format fs f p path before)⟩
          dsimp only
          rw [Formatter.fst_format]
          cases (f.resolver.vocabularyFor fs path).1 <;> rfl

/-- What comes of a file that is formatted alone, with a new formatter. -/
def alone (fs : FileSystem) (plan : RunPlan) (path : Text) : Attempt :=
  (formatFile fs plan.parser { resolver := { given := plan.config } } path).1

theorem alone_eq (fs : FileSystem) (plan : RunPlan) (path : Text) :
    alone fs plan path =
      attemptWith fs plan.parser path (Resolver.anew fs plan.config path) :=
  (formatFile_eq fs plan.parser _ path).1

/-- The same failure, except for how the path of the configuration is spelled in it. -/
inductive Failure.Same : Failure → Failure → Prop where
  | refl (f : Failure) : Same f f
  | error {e e' : Error} (h : e.Same e') (path : Text) :
      Same ⟨path, .error e⟩ ⟨path, .error e'⟩

/-- The same outcome, or the same failure except for that spelling. -/
inductive Attempt.Same : Attempt → Attempt → Prop where
  | formatted (o : Outcome) : Same (.ok o) (.ok o)
  | failed {f f' : Failure} (h : f.Same f') : Same (.error f) (.error f')

theorem Attempt.Same.toOption_eq {a b : Attempt} (h : Attempt.Same a b) :
    a.toOption = b.toOption := by
  cases h with
  | formatted o => rfl
  | failed h => rfl

theorem same_attemptWith {a b : Resolution} (h : Resolution.Same a b) (fs : FileSystem)
    (forced : Option Parser) (path : Text) :
    Attempt.Same (attemptWith fs forced path a) (attemptWith fs forced path b) := by
  unfold attemptWith
  cases forced.or (Parser.ofPath? path) with
  | none => exact .failed (.refl _)
  | some p =>
      cases fs.readText path with
      | error reason => exact .failed (.refl _)
      | ok before =>
          cases h with
          | found v => exact .formatted _
          | failed he => exact .failed (.error he path)

/-- What each file has in common with the file alone, all have. The induction is along the files,
with an invariant of the resolver that is handed on. -/
theorem forall₂_formatAll {fs : FileSystem} {plan : RunPlan} {files : List Text}
    {R : Attempt → Attempt → Prop} {I : Resolver → Prop}
    (hstep : ∀ path ∈ files, ∀ r, I r →
      R (attemptWith fs plan.parser path (r.vocabularyFor fs path).1) (alone fs plan path) ∧
        I (r.vocabularyFor fs path).2) {f : Formatter} (hf : I f.resolver) :
    List.Forall₂ R (formatAll fs plan.parser f files) (files.map (alone fs plan)) := by
  induction files generalizing f with
  | nil => exact .nil
  | cons path files ih =>
      obtain ⟨hhead, htail⟩ := List.forall_mem_cons.mp hstep
      obtain ⟨hattempt, hresolver⟩ := formatFile_eq fs plan.parser f path
      obtain ⟨hrel, hnext⟩ := hhead f.resolver hf
      refine .cons (hattempt ▸ hrel) (ih htail ?_)
      -- the progress that is noted in between is no matter of the resolver
      rcases hresolver with h | h
      · exact h ▸ hf
      · exact h ▸ hnext

/-- **No file of a run changes what comes of another.** -/
theorem same_outcomes (fs : FileSystem) (plan : RunPlan) :
    List.Forall₂ Attempt.Same (outcomes fs plan)
      ((discover fs plan.paths).map (alone fs plan)) := by
  refine forall₂_formatAll (I := fun r => r.Agrees fs ∧ r.given = plan.config) ?_
    ⟨Resolver.agrees_empty fs plan.config, rfl⟩
  intro path _ r ⟨hagrees, hgiven⟩
  obtain ⟨hsame, hnext⟩ := Resolver.vocabularyFor_of_agrees hagrees path
  rw [hgiven] at hsame
  rw [alone_eq]
  exact ⟨same_attemptWith hsame fs plan.parser path, hnext,
    (Resolver.given_vocabularyFor ..).trans hgiven⟩

/-- Where all paths are spelled plainly, a failure shows no other spelling. -/
theorem outcomes_of_plain {fs : FileSystem} {plan : RunPlan}
    (hcurrent : FileSystem.ProperPlace fs.current)
    (hfiles : ∀ path ∈ discover fs plan.paths, Path.doubled path = false) :
    outcomes fs plan = (discover fs plan.paths).map (alone fs plan) := by
  rw [← List.forall₂_eq_eq_eq]
  refine forall₂_formatAll
    (I := fun r => r.Agrees fs ∧ r.SpelledPlainly ∧ r.given = plan.config) ?_
    ⟨Resolver.agrees_empty fs plan.config, Resolver.spelledPlainly_empty plan.config, rfl⟩
  intro path hpath r ⟨hagrees, hplain, hgiven⟩
  have hdir := Path.plain_containing (FileSystem.plain_pathOf hcurrent).1 (hfiles path hpath)
  obtain ⟨-, hnext⟩ := Resolver.vocabularyFor_of_agrees hagrees path
  obtain ⟨hequal, hstill⟩ := Resolver.vocabularyFor_of_plain hagrees hplain hdir
  rw [hgiven] at hequal
  rw [alone_eq, hequal]
  exact ⟨rfl, hnext, hstill, (Resolver.given_vocabularyFor ..).trans hgiven⟩

/-- The outcome of a file that is formatted alone, unless it fails. -/
def outcome? (fs : FileSystem) (plan : RunPlan) (path : Text) : Option Outcome :=
  (alone fs plan path).toOption

/-- An outcome belongs to its file. -/
theorem file_of_outcome? {fs : FileSystem} {plan : RunPlan} {path : Text} {o : Outcome}
    (h : outcome? fs plan path = some o) : o.path = path ∧ fs.readText path = .ok o.before := by
  unfold outcome? at h
  rw [alone_eq, attemptWith] at h
  split at h
  · cases h
  · cases h
  · rename_i p before _ hread
    split at h
    · obtain rfl := Option.some.inj h
      exact ⟨rfl, hread⟩
    · cases h

/-! ## The summary and what is printed -/

section

variable (fs : FileSystem) (plan : RunPlan)

/-- Whether a file comes out of its own formatting with another text. -/
def changes (path : Text) : Bool := (outcome? fs plan path).any Outcome.changed

theorem map_toOption_outcomes :
    (outcomes fs plan).map Except.toOption =
      (discover fs plan.paths).map (outcome? fs plan) := by
  rw [← List.forall₂_eq_eq_eq, List.forall₂_map_left_iff, List.forall₂_map_right_iff]
  exact (List.forall₂_map_right_iff.mp (same_outcomes fs plan)).imp
    fun _ _ h => Attempt.Same.toOption_eq h

theorem formatted_eq : (outcomes fs plan).filterMap Except.toOption =
    (discover fs plan.paths).filterMap (outcome? fs plan) := by
  have hsame := congrArg (List.filterMap id) (map_toOption_outcomes fs plan)
  rwa [List.filterMap_map, List.filterMap_map] at hsame

theorem failed_eq : (outcomes fs plan).countP (!·.isOk) =
    (discover fs plan.paths).countP fun path => !(alone fs plan path).isOk := by
  have hsame := congrArg (List.countP Option.isNone) (map_toOption_outcomes fs plan)
  rw [List.countP_map, List.countP_map] at hsame
  have hnone (a : Attempt) : a.toOption.isNone = !a.isOk := by cases a <;> rfl
  simpa only [Function.comp_def, outcome?, hnone] using hsame

/-- **A file that fails, fails with its own error.** -/
theorem same_failures : List.Forall₂ Failure.Same ((outcomes fs plan).filterMap failure?)
    ((discover fs plan.paths).filterMap fun path => failure? (alone fs plan path)) := by
  have hmap : (discover fs plan.paths).filterMap (fun path => failure? (alone fs plan path)) =
      ((discover fs plan.paths).map (alone fs plan)).filterMap failure? := by
    rw [List.filterMap_map]
    rfl
  rw [hmap]
  refine List.rel_filterMap (fun a b h => ?_) (same_outcomes fs plan)
  cases h with
  | formatted o => exact .none
  | failed h => exact .some h

theorem changed_eq (files : List Text) :
    ((files.filterMap (outcome? fs plan)).filter Outcome.changed).map Outcome.path =
      files.filter (changes fs plan) := by
  induction files with
  | nil => rfl
  | cons path files ih =>
      rw [List.filterMap_cons, List.filter_cons, ← ih]
      cases h : outcome? fs plan path with
      | none =>
          have hno : changes fs plan path = false := by rw [changes, h]; rfl
          simp [hno]
      | some o =>
          have hsame : changes fs plan path = o.changed := by rw [changes, h]; rfl
          rw [hsame, List.filter_cons]
          by_cases hchanged : o.changed = true
          · simp [hchanged, (file_of_outcome? h).1]
          · simp [hchanged]

theorem check_output_eq (os : List Outcome) :
    os.flatMap (printed .check) =
      ((os.filter Outcome.changed).map Outcome.path).flatMap (· ++ ['\n']) := by
  induction os with
  | nil => rfl
  | cons o os ih =>
      rw [List.flatMap_cons, ih, List.filter_cons, printed]
      by_cases hchanged : o.changed = true
      · rw [if_pos hchanged, if_pos hchanged]
        rfl
      · rw [if_neg hchanged, if_neg hchanged]
        rfl

end

/-! ## What is written -/

/-- The text that is written at a place: that of the last changed outcome whose path leads there. -/
def writtenAt? (fs : FileSystem) (os : List Outcome) (place : Place) : Option Text :=
  (os.filter fun o => o.changed && (fs.locate o.path).toOption == some place).getLast?.map
    Outcome.after

theorem writtenAt?_cons (fs : FileSystem) (o : Outcome) (os : List Outcome) (place : Place) :
    writtenAt? fs (o :: os) place = (writtenAt? fs os place).or
      (if o.changed && (fs.locate o.path).toOption == some place then some o.after else none) := by
  unfold writtenAt?
  rw [List.filter_cons]
  split
  · rw [List.getLast?_cons]
    cases List.getLast? _ <;> rfl
  · rw [Option.or_none]

theorem foldl_written_of_ne {m : Mode} (hm : m ≠ .write) (fs : FileSystem) (os : List Outcome) :
    os.foldl (written m) fs = fs := by
  induction os with
  | nil => rfl
  | cons o os ih =>
      rw [List.foldl_cons, written, if_neg (by simp [hm])]
      exact ih

/-- **Each write goes where its path led at first**, and changes nothing else. -/
theorem foldl_written {fs fs' : FileSystem} (halike : fs.Alike fs') {os : List Outcome}
    (hos : ∀ o ∈ os, ∃ place old, fs.locate o.path = .ok place ∧
      fs.root.find? place = some (.file old)) :
    fs.Alike (os.foldl (written .write) fs') ∧
      ∀ place, ((os.foldl (written .write) fs').root.find? place).bind FileTree.content? =
        ((writtenAt? fs os place).map Content.text).or
          ((fs'.root.find? place).bind FileTree.content?) := by
  induction os generalizing fs' with
  | nil => exact ⟨halike, fun place => rfl⟩
  | cons o os ih =>
      obtain ⟨⟨place, old, hlocate, hfile⟩, hos⟩ := List.forall_mem_cons.mp hos
      rw [List.foldl_cons, written]
      by_cases hchanged : o.changed = true
      · rw [if_pos (by simpa using hchanged)]
        -- the file is still there, whatever has been written into it
        obtain ⟨old', hfile'⟩ : ∃ old', fs'.root.find? place = some (.file old') := by
          rcases halike.find?_cases place with ⟨-, old', -, h⟩ | ⟨es, -, h, -⟩ | ⟨h, -⟩
          · exact ⟨old', h⟩
          · rw [hfile] at h
            exact absurd h (by simp)
          · rw [hfile] at h
            exact absurd h (by simp)
        obtain ⟨hnext, hcontent⟩ := @FileSystem.overwrite_of_locate fs' o.path o.after place old'
          (by rw [← halike.locate, hlocate]) hfile'
        obtain ⟨hafter, hrest⟩ := ih (halike.trans hnext) hos
        refine ⟨hafter, fun q => ?_⟩
        rw [hrest q, hcontent q, writtenAt?_cons, hchanged, hlocate]
        -- a later write to the same place wins
        cases writtenAt? fs os q with
        | some t => rfl
        | none =>
            by_cases hq : q = place
            · simp [hq, Except.toOption]
            · simp [hq, Except.toOption, Ne.symm hq]
      · rw [if_neg (by simpa using hchanged)]
        obtain ⟨hafter, hrest⟩ := ih halike hos
        refine ⟨hafter, fun q => ?_⟩
        rw [hrest q, writtenAt?_cons, if_neg (by simp [hchanged]), Option.or_none]

theorem file_of_readText {fs : FileSystem} {path t : Text} (h : fs.readText path = .ok t) :
    ∃ place, fs.locate path = .ok place ∧ fs.root.find? place = some (.file (.text t)) := by
  unfold FileSystem.readText FileSystem.get at h
  cases hlocate : fs.locate path with
  | error e =>
      rw [hlocate] at h
      cases e <;> exact absurd h (by simp [bind, Except.bind])
  | ok place =>
      refine ⟨place, rfl, ?_⟩
      rw [hlocate] at h
      cases hfind : fs.root.find? place with
      | none => exact absurd h (by simp [bind, Except.bind, hfind])
      | some tree =>
          simp only [bind, Except.bind, hfind, pure, Except.pure] at h
          split at h
          · rename_i t' htree
            injection htree with htree
            injection h with h
            rw [htree, h]
          · exact absurd h (by simp)
          · exact absurd h (by simp)

/-- **The files of a run do not influence each other.** Each is formatted as it would be alone, and
one that fails, fails with its own error; the summary counts and lists them by that; and nothing is
written but the changed files, if anything at all. Only the path of a configuration may be spelled
as another file found it first, and not even that where no path begins with exactly two
separators. -/
theorem files_of_run_are_independent (fs : FileSystem) (plan : RunPlan) :
    List.Forall₂ Attempt.Same (outcomes fs plan)
      ((discover fs plan.paths).map (alone fs plan)) ∧
    (FileSystem.ProperPlace fs.current →
      (∀ path ∈ discover fs plan.paths, Path.doubled path = false) →
      outcomes fs plan = (discover fs plan.paths).map (alone fs plan)) ∧
    (run fs plan).summary.files = (discover fs plan.paths).length ∧
    (run fs plan).summary.failed =
      (discover fs plan.paths).countP (fun path => !(alone fs plan path).isOk) ∧
    List.Forall₂ Failure.Same (run fs plan).failures
      ((discover fs plan.paths).filterMap fun path => failure? (alone fs plan path)) ∧
    (run fs plan).summary.changed = (discover fs plan.paths).filter (changes fs plan) ∧
    (plan.mode = .stdout → (run fs plan).files = fs ∧
      (run fs plan).output =
        ((discover fs plan.paths).filterMap (outcome? fs plan)).flatMap Outcome.after) ∧
    (plan.mode = .check → (run fs plan).files = fs ∧
      (run fs plan).output =
        ((discover fs plan.paths).filter (changes fs plan)).flatMap (· ++ ['\n'])) ∧
    (plan.mode = .write → (run fs plan).output = [] ∧ fs.Alike (run fs plan).files ∧
      ∀ place, ((run fs plan).files.root.find? place).bind FileTree.content? =
        ((writtenAt? fs ((discover fs plan.paths).filterMap (outcome? fs plan)) place).map
          Content.text).or ((fs.root.find? place).bind FileTree.content?)) := by
  have hformatted := formatted_eq fs plan
  have hfiles : (run fs plan).files =
      ((discover fs plan.paths).filterMap (outcome? fs plan)).foldl (written plan.mode) fs := by
    rw [← hformatted]
    rfl
  have houtput : (run fs plan).output =
      ((discover fs plan.paths).filterMap (outcome? fs plan)).flatMap (printed plan.mode) := by
    rw [← hformatted]
    rfl
  refine ⟨same_outcomes fs plan, outcomes_of_plain, rfl, failed_eq fs plan,
    same_failures fs plan, ?_, fun hmode => ?_, fun hmode => ?_, fun hmode => ?_⟩
  · show (((outcomes fs plan).filterMap Except.toOption).filter Outcome.changed).map _ = _
    rw [hformatted, changed_eq]
  · rw [hfiles, houtput, hmode]
    exact ⟨foldl_written_of_ne (by simp) fs _, rfl⟩
  · rw [hfiles, houtput, hmode, check_output_eq, changed_eq]
    exact ⟨foldl_written_of_ne (by simp) fs _, rfl⟩
  · rw [hfiles, houtput, hmode]
    refine ⟨by simp [printed], ?_⟩
    refine foldl_written (FileSystem.Alike.refl fs) fun o ho => ?_
    obtain ⟨path, -, hpath⟩ := List.mem_filterMap.mp ho
    obtain ⟨rfl, hread⟩ := file_of_outcome? hpath
    obtain ⟨place, hlocate, hfile⟩ := file_of_readText hread
    exact ⟨place, _, hlocate, hfile⟩

/-- A file that changes, and one whose configuration cannot be read. -/
def mixed : FileSystem :=
  (((FileSystem.empty ["p".toList]).create "a.css".toList (.text ".x{@apply b  b;}".toList)).create
    "q/tailwind.config.json".toList .binary).create "q/b.css".toList (.text ".x{}".toList)

def rewriting : RunPlan := ⟨["q/b.css".toList, "a.css".toList], none, .write, none⟩

/-- Two classes of one rank stay in their order, and the gap between them becomes a space. -/
theorem sort_twice (r : Ranking) : ClassList.sort r {} " b  b".toList = " b b".toList := by
  have hdivided : ClassList.divide " b  b".toList =
      ⟨" ".toList, [⟨"b".toList, "  ".toList⟩, ⟨"b".toList, []⟩]⟩ := by decide +kernel
  have hwords : ClassList.sortBy r ["b".toList, "b".toList] = ["b".toList, "b".toList] :=
    ClassList.sortBy_of_ordered (List.pairwise_pair.mpr (Rank.le_refl _))
  unfold ClassList.sort
  rw [if_neg (by decide +kernel), hdivided]
  show " ".toList ++ [] ++ [] ++ Text.join [' '] (ClassList.sortBy r ["b".toList, "b".toList]) ++
    [] ++ [] ++ [] = _
  rw [hwords]
  decide +kernel

theorem sortClasses_twice (r : Ranking) :
    Parser.css.sortClasses r ".x{@apply b  b;}".toList = some ".x{@apply b b;}".toList := by
  have hunits : Parser.css.language.units ".x{@apply b  b;}".toList =
      [.list ⟨⟨9, 14⟩, .atRuleParams, .atRule, {}⟩] := by decide +kernel
  have hsplit : ".x{@apply b  b;}".toList =
      ".x\x7b@apply".toList ++ (" b  b".toList ++ ";\x7d".toList) := by decide +kernel
  have hedit : ClassUnit.edit? ".x{@apply b  b;}".toList r.ofSource
      (.list ⟨⟨9, 14⟩, .atRuleParams, .atRule, {}⟩) = some ⟨⟨9, 14⟩, " b b".toList⟩ := by
    rw [ClassUnit.edit?_list r.ofSource hsplit (by decide +kernel), sort_twice]
    decide +kernel
  rw [Parser.sortClasses, hunits]
  dsimp only
  rw [ClassUnit.edits, List.filterMap_cons_some hedit, List.filterMap_nil]
  decide +kernel

/-- What comes of the one file. -/
def changedOutcome : Outcome :=
  ⟨"a.css".toList, ".x{@apply b  b;}".toList, ".x{@apply b b;}".toList⟩

/-- What comes of the other. -/
def brokenFailure : Failure :=
  ⟨"q/b.css".toList, .error (.io "/p/q/tailwind.config.json".toList
    "the file cannot be read".toList)⟩

theorem alone_changed : alone mixed rewriting "a.css".toList = .ok changedOutcome := by
  have hsource : Resolver.sourceAnew mixed none "a.css".toList = none := by decide +kernel
  have hfound : Resolver.anew mixed none "a.css".toList = .ok (Vocabulary.ofConfig {}) := by
    rw [Resolver.anew_eq, hsource]
    rfl
  have hp : none.or (Parser.ofPath? "a.css".toList) = some .css := by decide +kernel
  have hread : mixed.readText "a.css".toList = .ok ".x{@apply b  b;}".toList := by decide +kernel
  rw [alone_eq]
  show attemptWith mixed none _ (Resolver.anew mixed none "a.css".toList) = _
  rw [hfound, attemptWith_ok hp hread, sortClasses_twice]
  rfl

theorem alone_broken : alone mixed rewriting "q/b.css".toList = .error brokenFailure := by
  decide +kernel

/-- The failure of one file, with its own error, leaves the other to be written. -/
theorem files_of_run_are_independent_mixed :
    (run mixed rewriting).summary.changed = ["a.css".toList] ∧
    (run mixed rewriting).summary.failed = 1 ∧
    (run mixed rewriting).failures = [brokenFailure] ∧
    ((run mixed rewriting).files.root.find? ["p".toList, "a.css".toList]).bind
      FileTree.content? = some (.text ".x{@apply b b;}".toList) ∧
    ((run mixed rewriting).files.root.find? ["p".toList, "q".toList, "b.css".toList]).bind
      FileTree.content? = some (.text ".x{}".toList) := by
  obtain ⟨-, hequal, -, -, -, hchanged, -, -, hwrite⟩ :=
    files_of_run_are_independent mixed rewriting
  obtain ⟨-, -, hcontent⟩ := hwrite rfl
  have hfiles : discover mixed rewriting.paths = ["a.css".toList, "q/b.css".toList] := by
    decide +kernel
  have hsome : outcome? mixed rewriting "a.css".toList = some changedOutcome :=
    congrArg Except.toOption alone_changed
  have hnone : outcome? mixed rewriting "q/b.css".toList = none :=
    congrArg Except.toOption alone_broken
  have hchanges : changes mixed rewriting "a.css".toList = true := by
    rw [changes, hsome]
    decide +kernel
  have hkeeps : changes mixed rewriting "q/b.css".toList = false := by
    rw [changes, hnone]
    rfl
  have hplain : outcomes mixed rewriting = [.ok changedOutcome, .error brokenFailure] := by
    have hcurrent : FileSystem.ProperPlace mixed.current := by
      intro n hn
      rw [List.mem_singleton.mp hn]
      exact ⟨by decide, by decide⟩
    rw [hequal hcurrent (by rw [hfiles]; decide +kernel), hfiles, ← alone_changed, ← alone_broken]
    rfl
  rw [hchanged, hcontent, hcontent, hfiles, List.filterMap_cons_some hsome,
    List.filterMap_cons_none hnone, List.filterMap_nil]
  refine ⟨?_, ?_, ?_, by decide +kernel, by decide +kernel⟩
  · rw [List.filter_cons_of_pos hchanges, List.filter_cons_of_neg (by rw [hkeeps]; simp)]
    rfl
  · show (outcomes mixed rewriting).countP (!·.isOk) = 1
    rw [hplain]
    rfl
  · show (outcomes mixed rewriting).filterMap failure? = _
    rw [hplain]
    rfl

end Project

end ClassSort
