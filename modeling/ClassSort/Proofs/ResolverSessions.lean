import Mathlib.Data.Finset.Card
import ClassSort.Proofs.ResolverMemory

/-!
# Sessions with a resolver

A session is a run of events: files are written and deleted, and in between the vocabulary for
some file is asked for. Every answer is kept together with the configuration file it came from
and with the files as they were at the time.

**What was answered once stays answered**: the invariant `Consistent` ties all answers to the two
tables of the resolver, and every event keeps it. From it follow that files of one directory
have one answer, that one configuration has one answer, and that the resolver has resolved
exactly the configurations that were used. As long as no file was changed, the invariant
`Resolver.Agrees` holds as well, and then all answers are those of a new resolver.
-/

namespace ClassSort

open ClassSort.Path (Component components)

/-- What happens while a resolver is in use. -/
inductive Event where
  /-- A file is written, and the directories that it needs are made. -/
  | write (path : Text) (content : Content)
  | delete (path : Text)
  /-- The vocabulary for a file is asked for. -/
  | ask (file : Text)
deriving Repr, DecidableEq

/-- An answer, with what led to it. -/
structure Answer where
  /-- The files when the question was asked. -/
  files : FileSystem
  file : Text
  /-- The configuration file that was used, or none. -/
  source : Option Text
  result : Resolution

namespace Answer

/-- The directory of the file. -/
def dir (a : Answer) : Text := Path.containing a.files.currentPath a.file

/-- The configuration that was used, by its components. -/
def key (a : Answer) : Option (List Component) := a.source.map components

end Answer

/-- The files, a resolver, and the answers that it gave so far. -/
structure Session where
  files : FileSystem
  resolver : Resolver
  answers : List Answer := []

namespace Session

/-- A session that begins with some files and perhaps a given configuration. -/
def start (fs : FileSystem) (given : Option Text) : Session := { files := fs, resolver := { given } }

/-- The session after an event. -/
def step (s : Session) : Event → Session
  | .write path content => { s with files := s.files.create path content }
  | .delete path => { s with files := s.files.delete path }
  | .ask file =>
    { s with
      resolver := (s.resolver.vocabularyFor s.files file).2
      answers := s.answers ++ [{
        files := s.files
        file
        source := (s.resolver.sourceFor s.files file).1
        result := (s.resolver.vocabularyFor s.files file).1 }] }

/-- The session after some events. -/
def run (s : Session) (events : List Event) : Session := events.foldl step s

/-- What holds at the start and after every event holds after all of them. -/
theorem run_induction {P : Session → Prop} (hstep : ∀ s e, P s → P (s.step e)) {s : Session}
    (hs : P s) (events : List Event) : P (s.run events) := by
  induction events generalizing s with
  | nil => exact hs
  | cons e events ih => exact ih (hstep s e hs)

/-! ## Answers and tables -/

/-- The answers and the tables of the resolver say the same. -/
structure Consistent (given : Option Text) (s : Session) : Prop where
  given_eq : s.resolver.given = given
  /-- Every answer is still remembered, -/
  frozen : ∀ a ∈ s.answers, s.resolver.known? a.source = some a.result
  /-- and so is the configuration file it came from. -/
  located : ∀ a ∈ s.answers, s.resolver.knownSource? a.dir = some a.source
  /-- Nothing is remembered twice, -/
  distinct : s.resolver.keys.Nodup
  /-- and nothing but answers. -/
  asked : ∀ k ∈ s.resolver.keys, ∃ a ∈ s.answers, a.key = k
  counted : s.resolver.resolutions = s.resolver.keys.length

theorem consistent_start (fs : FileSystem) (given : Option Text) :
    Consistent given (start fs given) :=
  ⟨rfl, by simp [start], by simp [start], by simp [start, Resolver.keys],
    by simp [start, Resolver.keys], rfl⟩

theorem consistent_step {given : Option Text} (s : Session) (e : Event) (h : Consistent given s) :
    Consistent given (s.step e) := by
  cases e with
  | write path content => exact ⟨h.given_eq, h.frozen, h.located, h.distinct, h.asked, h.counted⟩
  | delete path => exact ⟨h.given_eq, h.frozen, h.located, h.distinct, h.asked, h.counted⟩
  | ask file =>
      have hlearns := Resolver.learns_vocabularyFor s.files file s.resolver
      unfold step
      refine ⟨hlearns.given_eq.trans h.given_eq, ?_, ?_, ?_, ?_, ?_⟩
      · intro a ha
        rcases List.mem_append.mp ha with ha | ha
        · exact hlearns.frozen _ _ (h.frozen a ha)
        · rw [List.mem_singleton.mp ha]
          exact hlearns.answered
      · intro a ha
        rcases List.mem_append.mp ha with ha | ha
        · exact hlearns.frozenSources _ _ (h.located a ha)
        · rw [List.mem_singleton.mp ha]
          exact hlearns.located
      -- the keys are those of before, and perhaps that of this answer
      all_goals rcases hlearns.keys with ⟨hold, hkeys, hcount⟩ | ⟨hnew, hkeys, hcount⟩
      · rw [hkeys]
        exact h.distinct
      · rw [hkeys]
        exact List.nodup_cons.mpr ⟨hnew, h.distinct⟩
      · rw [hkeys]
        intro k hk
        obtain ⟨a, ha, hak⟩ := h.asked k hk
        exact ⟨a, List.mem_append_left _ ha, hak⟩
      · rw [hkeys]
        intro k hk
        rcases List.mem_cons.mp hk with rfl | hk
        · exact ⟨_, List.mem_append_right _ (List.mem_singleton.mpr rfl), rfl⟩
        · obtain ⟨a, ha, hak⟩ := h.asked k hk
          exact ⟨a, List.mem_append_left _ ha, hak⟩
      · rw [hcount, hkeys, h.counted]
      · rw [hcount, hkeys, List.length_cons, h.counted]

/-! ## Files that were not changed -/

/-- As long as all questions were asked about the same files, a new resolver would have answered
them in the same way. -/
structure LikeNew (fs : FileSystem) (given : Option Text) (s : Session) : Prop where
  given_eq : s.resolver.given = given
  same : (∀ a ∈ s.answers, a.files = fs) → s.resolver.Agrees fs ∧
    ∀ a ∈ s.answers, Resolution.Same a.result (Resolver.anew fs given a.file)
  equal : (∀ a ∈ s.answers, a.files = fs ∧ Path.Plain a.dir) → s.resolver.SpelledPlainly ∧
    ∀ a ∈ s.answers, a.result = Resolver.anew fs given a.file

theorem likeNew_start (fs : FileSystem) (given : Option Text) : LikeNew fs given (start fs given) :=
  ⟨rfl, fun _ => ⟨Resolver.agrees_empty fs given, by simp [start]⟩,
    fun _ => ⟨Resolver.spelledPlainly_empty given, by simp [start]⟩⟩

theorem likeNew_step {fs : FileSystem} {given : Option Text} (s : Session) (e : Event)
    (h : LikeNew fs given s) : LikeNew fs given (s.step e) := by
  cases e with
  | write path content => exact ⟨h.given_eq, h.same, h.equal⟩
  | delete path => exact ⟨h.given_eq, h.same, h.equal⟩
  | ask file =>
      unfold step
      refine ⟨by rw [Resolver.given_vocabularyFor, h.given_eq], ?_, ?_⟩
      · intro hfiles
        obtain ⟨hagrees, hsame⟩ := h.same fun a ha => hfiles a (List.mem_append_left _ ha)
        have hnow : s.files = fs := hfiles _ (List.mem_append_right _ (List.mem_singleton.mpr rfl))
        obtain ⟨hresult, hnext⟩ := Resolver.vocabularyFor_of_agrees hagrees file
        rw [h.given_eq] at hresult
        rw [hnow]
        refine ⟨hnext, fun a ha => ?_⟩
        rcases List.mem_append.mp ha with ha | ha
        · exact hsame a ha
        · rw [List.mem_singleton.mp ha]
          exact hresult
      · intro hfiles
        have hbefore := fun a ha => hfiles a (List.mem_append_left _ ha)
        obtain ⟨hagrees, -⟩ := h.same fun a ha => (hbefore a ha).1
        obtain ⟨hplain, hequal⟩ := h.equal hbefore
        obtain ⟨hnow, hdir⟩ := hfiles _ (List.mem_append_right _ (List.mem_singleton.mpr rfl))
        dsimp only [Answer.dir] at hnow hdir
        rw [hnow] at hdir ⊢
        obtain ⟨hresult, hnext⟩ := Resolver.vocabularyFor_of_plain hagrees hplain hdir
        rw [h.given_eq] at hresult
        refine ⟨hnext, fun a ha => ?_⟩
        rcases List.mem_append.mp ha with ha | ha
        · exact hequal a ha
        · rw [List.mem_singleton.mp ha]
          exact hresult

/-! ## Any session -/

theorem result_eq_of_key {given : Option Text} {s : Session} (h : Consistent given s)
    {a b : Answer} (ha : a ∈ s.answers) (hb : b ∈ s.answers) (hkey : a.key = b.key) :
    a.result = b.result := by
  have hfrozen := h.frozen a ha
  rw [s.resolver.known?_congr hkey, h.frozen b hb] at hfrozen
  exact (Option.some.inj hfrozen).symm

theorem source_eq_of_dir {given : Option Text} {s : Session} (h : Consistent given s)
    {a b : Answer} (ha : a ∈ s.answers) (hb : b ∈ s.answers)
    (hdir : components a.dir = components b.dir) : a.source = b.source := by
  have hlocated := h.located a ha
  rw [s.resolver.knownSource?_congr hdir, h.located b hb] at hlocated
  exact (Option.some.inj hlocated).symm

/-- The keys of the table are the configurations that were used. -/
theorem resolutions_eq {given : Option Text} {s : Session} (h : Consistent given s) :
    s.resolver.resolutions = (s.answers.map Answer.key).toFinset.card := by
  have hsame : s.resolver.keys.toFinset = (s.answers.map Answer.key).toFinset := by
    ext k
    rw [List.mem_toFinset, List.mem_toFinset]
    constructor
    · intro hk
      obtain ⟨a, ha, hak⟩ := h.asked k hk
      exact List.mem_map.mpr ⟨a, ha, hak⟩
    · intro hk
      obtain ⟨a, ha, rfl⟩ := List.mem_map.mp hk
      obtain ⟨e, he, hkey, -⟩ := Resolver.exists_resolved (h.frozen a ha)
      exact List.mem_map.mpr ⟨e, he, hkey⟩
  rw [h.counted, ← List.toFinset_card_of_nodup h.distinct, hsame]

/--
**A resolver resolves once, and what it answered stays.**

Let files be written and deleted in any way between the questions. Files with the same directory
have the same answer, a vocabulary or an error, and so have files for which the same configuration
was found. The number of resolutions is the number of different configurations that were used.

If the files were the same at all questions, the answers are those of a resolver that remembers
nothing. Paths count as the same when their components agree, and an error shows the spelling
under which its file was found first; where no path begins with exactly two separators there is
one spelling, and the answers are equal to the letter.
-/
theorem answers_are_frozen (fs : FileSystem) (given : Option Text) (events : List Event)
    {s : Session} (hs : s = (start fs given).run events) :
    (∀ a ∈ s.answers, ∀ b ∈ s.answers, components a.dir = components b.dir →
        a.result = b.result) ∧
      (∀ a ∈ s.answers, ∀ b ∈ s.answers, a.key = b.key → a.result = b.result) ∧
      s.resolver.resolutions = (s.answers.map Answer.key).toFinset.card ∧
      ((∀ a ∈ s.answers, a.files = fs) →
        (∀ a ∈ s.answers, Resolution.Same a.result (Resolver.anew fs given a.file)) ∧
        (FileSystem.ProperPlace fs.current → (∀ a ∈ s.answers, Path.doubled a.file = false) →
          ∀ a ∈ s.answers, a.result = Resolver.anew fs given a.file)) := by
  have hconsistent : Consistent given s :=
    hs ▸ run_induction consistent_step (consistent_start fs given) events
  have hnew : LikeNew fs given s :=
    hs ▸ run_induction likeNew_step (likeNew_start fs given) events
  refine ⟨?_, ?_, resolutions_eq hconsistent, ?_⟩
  · intro a ha b hb hdir
    have hsource := source_eq_of_dir hconsistent ha hb hdir
    exact result_eq_of_key hconsistent ha hb (congrArg (Option.map components) hsource)
  · intro a ha b hb hkey
    exact result_eq_of_key hconsistent ha hb hkey
  · intro hfiles
    refine ⟨(hnew.same hfiles).2, ?_⟩
    intro hcurrent hspelling
    have hplain : ∀ a ∈ s.answers, a.files = fs ∧ Path.Plain a.dir := by
      intro a ha
      refine ⟨hfiles a ha, Path.plain_containing ?_ (hspelling a ha)⟩
      rw [hfiles a ha]
      exact (FileSystem.plain_pathOf hcurrent).1
    exact (hnew.equal hplain).2

/-- An empty directory. -/
def emptyHome : FileSystem := FileSystem.empty ["p".toList]

/-- A directory with a configuration that cannot be read. -/
def brokenHome : FileSystem := emptyHome.create "tailwind.config.json".toList .binary

/-- The configuration appears, is used, and is deleted before the second question. -/
def mending : List Event :=
  [.write "tailwind.config.json".toList .binary, .ask "a.html".toList,
   .delete "tailwind.config.json".toList, .ask "./b.html".toList]

/-- The error stays when the configuration is gone, though a search would find none. And two files
in a directory that stays as it is are answered as by a new resolver. -/
theorem answers_are_frozen_mending :
    (((start emptyHome none).run mending).answers.map fun a =>
        (a.source, Resolver.sourceAnew a.files none a.file)) =
      [(some "/p/tailwind.config.json".toList, some "/p/tailwind.config.json".toList),
       (some "/p/tailwind.config.json".toList, none)] ∧
    (∀ a ∈ ((start emptyHome none).run mending).answers,
      ∀ b ∈ ((start emptyHome none).run mending).answers, a.result = b.result) ∧
    ((start emptyHome none).run mending).resolver.resolutions = 1 ∧
    ∀ a ∈ ((start brokenHome none).run [.ask "a.html".toList, .ask "/p/b.html".toList]).answers,
      a.result = Resolver.anew brokenHome none a.file := by
  have hmending := answers_are_frozen emptyHome none mending rfl
  have hbroken := answers_are_frozen brokenHome none
    [.ask "a.html".toList, .ask "/p/b.html".toList] rfl
  refine ⟨by decide +kernel, ?_, by decide +kernel, ?_⟩
  · have hdirs : (((start emptyHome none).run mending).answers.map fun a => components a.dir) =
        [[.root, .name ['p']], [.root, .name ['p']]] := by decide +kernel
    have hdir : ∀ a ∈ ((start emptyHome none).run mending).answers,
        components a.dir = [.root, .name ['p']] := by
      intro a ha
      have hmem := List.mem_map_of_mem (f := fun a : Answer => components a.dir) ha
      rw [hdirs] at hmem
      simpa using hmem
    intro a ha b hb
    exact hmending.1 a ha b hb ((hdir a ha).trans (hdir b hb).symm)
  · have hanswers : ∀ a ∈ ((start brokenHome none).run
        [.ask "a.html".toList, .ask "/p/b.html".toList]).answers,
        a.files = brokenHome ∧ (a.file = "a.html".toList ∨ a.file = "/p/b.html".toList) := by
      intro a ha
      rcases List.mem_append.mp ha with ha | ha
      · rcases List.mem_append.mp ha with ha | ha
        · exact absurd ha (by simp [start])
        · rw [List.mem_singleton.mp ha]
          exact ⟨rfl, .inl rfl⟩
      · rw [List.mem_singleton.mp ha]
        exact ⟨rfl, .inr rfl⟩
    refine (hbroken.2.2.2 fun a ha => (hanswers a ha).1).2 ?_ ?_
    · intro n hn
      rw [List.mem_singleton.mp hn]
      exact ⟨by decide, by decide⟩
    · intro a ha
      rcases (hanswers a ha).2 with hfile | hfile <;> rw [hfile] <;> decide

end Session

end ClassSort
