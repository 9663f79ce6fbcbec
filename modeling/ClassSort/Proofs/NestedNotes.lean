import ClassSort.Project.Formatter

/-!
# Notes that nest

A guard remembers all that was noted when it was made, the phase and the file, and restores both
when it is left. That is only right if guards are left in turn, the last one made first. A
`Ledger` keeps the guards that are not left yet, and `Ledger.Nested` says of a run of changes
that they are left in turn.

`Follows` is what one change preserves: each guard in the ledger remembers what the older ones hold
together. So at any time the phase is that of the youngest guard of a phase and the file that of the
youngest guard of a file, and when no guard is left over everything is as it was before.

The changes that a formatter makes nest (`settles_formatWith`), whichever way it comes to its end:
with an error in the configuration, with an error of the parser, without anything to sort, or with
the sorted source.
-/

namespace ClassSort

/-- The phase that a change enters. -/
def Note.phase? : Note → Option Phase
  | .enter p => some p
  | _ => none

/-- The file that a change begins. -/
def Note.file? : Note → Option Text
  | .begin file => some file
  | _ => none

/-- A change that makes a guard. -/
def Note.MakesGuard : Note → Prop
  | .enter _ | .begin _ => True
  | _ => False

/-- What is noted after a change that enters a phase or begins a file. -/
def Activity.hold (a : Activity) (n : Note) : Activity :=
  ⟨n.phase?.or a.phase, n.file?.or a.file⟩

/-- The guards that are not left yet, each with its number and the change that made it, the youngest
one first. -/
structure Ledger where
  /-- The number of the next guard. -/
  next : Nat
  live : List (Nat × Note) := []

namespace Ledger

/-- The ledger after a change. -/
def note (l : Ledger) : Note → Ledger
  | .enter p => ⟨l.next + 1, (l.next, .enter p) :: l.live⟩
  | .begin file => ⟨l.next + 1, (l.next, .begin file) :: l.live⟩
  | .leave guard => { l with live := l.live.filter (·.1 != guard) }
  | _ => l

/-- The ledger after some changes. -/
def noteAll (l : Ledger) (ns : List Note) : Ledger := ns.foldl note l

/-- The phase of the youngest guard of a phase. -/
def phase? (l : Ledger) : Option Phase := l.live.findSome? (·.2.phase?)

/-- The file of the youngest guard of a file. -/
def file? (l : Ledger) : Option Text := l.live.findSome? (·.2.file?)

/-- A change that keeps the order: of the guards only the youngest may be left. -/
def Allows (l : Ledger) : Note → Prop
  | .leave guard => l.live.head?.map Prod.fst = some guard
  | .reset => False
  | _ => True

/-- Changes that keep the order, one after the other. -/
def Nested : Ledger → List Note → Prop
  | _, [] => True
  | l, n :: ns => l.Allows n ∧ Nested (l.note n) ns

end Ledger

namespace Monitor

/-- The monitor after some changes. -/
def noteAll (m : Monitor) (ns : List Note) : Monitor := ns.foldl note m

/-- A ledger of the guards that are made from now on. -/
def ledger (m : Monitor) : Ledger := ⟨m.guards.length, []⟩

end Monitor

/-! ## One change -/

/-- What is noted when some guards are live, the youngest one first. -/
def held (start : Activity) (live : List (Nat × Note)) : Activity :=
  live.foldr (fun g a => a.hold g.2) start

/-- **What every change preserves.** The guards in the ledger hold what is noted, and each of them
remembers what the older ones hold. -/
structure Follows (start : Activity) (m : Monitor) (l : Ledger) : Prop where
  next : l.next = m.guards.length
  activity : m.activity = held start l.live
  saved : ∀ g older, g :: older <:+ l.live → m.guards[g.1]? = some (some (held start older))
  falling : l.live.Pairwise fun a b => b.1 < a.1

theorem follows_ledger (m : Monitor) : Follows m.activity m m.ledger :=
  ⟨rfl, rfl, fun g older h => absurd (List.suffix_nil.mp h) (by simp), .nil⟩

namespace Follows

variable {start : Activity} {m : Monitor} {l : Ledger}

theorem lt_length (h : Follows start m l) {g : Nat × Note} (hg : g ∈ l.live) :
    g.1 < m.guards.length := by
  obtain ⟨younger, older, hlive⟩ := List.append_of_mem hg
  have hsaved := h.saved g older (hlive ▸ List.suffix_append younger (g :: older))
  exact (List.getElem?_eq_some_iff.mp hsaved).1

/-- A new guard remembers what all others hold. -/
theorem make (h : Follows start m l) (n : Note) :
    Follows start { m.guarded with activity := m.activity.hold n }
      ⟨l.next + 1, (l.next, n) :: l.live⟩ := by
  refine ⟨?_, ?_, fun g older hsuffix => ?_, ?_⟩
  · show l.next + 1 = (m.guards ++ [some m.activity]).length
    rw [h.next, List.length_append, List.length_singleton]
  · exact congrArg (Activity.hold · n) h.activity
  · show (m.guards ++ [some m.activity])[g.1]? = _
    rcases List.suffix_cons_iff.mp hsuffix with heq | hsuffix
    · obtain ⟨rfl, rfl⟩ := List.cons.inj heq
      show (m.guards ++ [some m.activity])[l.next]? = _
      rw [h.next, List.getElem?_concat_length, h.activity]
    · have hlt := h.lt_length (hsuffix.subset List.mem_cons_self)
      rw [List.getElem?_append_left hlt]
      exact h.saved g older hsuffix
  · refine List.pairwise_cons.mpr ⟨fun g hg => ?_, h.falling⟩
    exact h.next ▸ h.lt_length hg

/-- Leaving the youngest guard brings back what the others hold. -/
theorem leave (h : Follows start m l) {guard : Nat} (hallows : l.Allows (.leave guard)) :
    Follows start (m.leave guard) (l.note (.leave guard)) := by
  obtain ⟨g, hhead, rfl⟩ := Option.map_eq_some_iff.mp hallows
  obtain ⟨older, hlive⟩ := List.head?_eq_some_iff.mp hhead
  have hsaved := h.saved g older (hlive ▸ List.suffix_rfl)
  have hfalling := h.falling
  rw [hlive] at hfalling
  obtain ⟨hyoungest, hfalling⟩ := List.pairwise_cons.mp hfalling
  have hother : ∀ o ∈ older, g.1 ≠ o.1 := fun o ho => Nat.ne_of_gt (hyoungest o ho)
  have hleft : m.leave g.1 =
      { m with activity := held start older, guards := m.guards.set g.1 none } := by
    rw [Monitor.leave, hsaved]
  have hrest : l.note (.leave g.1) = ⟨l.next, older⟩ := by
    rw [Ledger.note, hlive, List.filter_cons_of_neg (by simp), List.filter_eq_self.mpr]
    intro o ho
    simpa using (hother o ho).symm
  rw [hleft, hrest]
  refine ⟨?_, rfl, fun o older' hsuffix => ?_, hfalling⟩
  · show l.next = (m.guards.set g.1 none).length
    rw [List.length_set, h.next]
  · have hne := hother o (hsuffix.subset List.mem_cons_self)
    show (m.guards.set g.1 none)[o.1]? = _
    rw [List.getElem?_set_ne hne]
    exact h.saved o older' (hlive ▸ hsuffix.trans (List.suffix_cons g older))

/-- Progress is counted apart. -/
theorem count (h : Follows start m l) (p : Progress) : Follows start { m with progress := p } l :=
  ⟨h.next, h.activity, h.saved, h.falling⟩

/-- **A change that keeps the order.** -/
theorem note (h : Follows start m l) {n : Note} (hallows : l.Allows n) :
    Follows start (m.note n) (l.note n) := by
  cases n with
  | enter p => exact h.make (.enter p)
  | begin file => exact h.make (.begin file)
  | leave guard => exact h.leave hallows
  | reset => exact hallows.elim
  | progress processed total => exact h.count ⟨processed, total⟩
  | increment => exact h.count _

/-! ## Many changes -/

theorem noteAll (h : Follows start m l) {ns : List Note} (hns : l.Nested ns) :
    Follows start (m.noteAll ns) (l.noteAll ns) := by
  induction ns generalizing m l with
  | nil => exact h
  | cons n ns ih => exact ih (h.note hns.1) hns.2

end Follows

/-- Whatever a change may set, the youngest live guard that sets it decides. -/
theorem held_eq_youngest {α : Type} (noted : Activity → Option α) (pick : Note → Option α)
    (hpick : ∀ a n, noted (Activity.hold a n) = (pick n).or (noted a)) (start : Activity)
    (live : List (Nat × Note)) :
    noted (held start live) = (live.findSome? (pick ·.2)).or (noted start) := by
  induction live with
  | nil => rfl
  | cons g live ih =>
      show noted ((held start live).hold g.2) = _
      rw [hpick, List.findSome?_cons, ih]
      cases pick g.2 <;> rfl

/-! ## Changes inside others -/

namespace Ledger

theorem nested_append {l : Ledger} {a b : List Note} :
    l.Nested (a ++ b) ↔ l.Nested a ∧ (l.noteAll a).Nested b := by
  induction a generalizing l with
  | nil => exact (and_iff_right trivial).symm
  | cons n a ih => exact (and_congr_right fun _ => ih).trans and_assoc.symm

/-- The ledger with older guards below its own. -/
def above (l : Ledger) (older : List (Nat × Note)) : Ledger := { l with live := l.live ++ older }

/-- Guards that are older than all that a ledger has and will have. -/
structure Below (l : Ledger) (older : List (Nat × Note)) : Prop where
  next : ∀ o ∈ older, o.1 < l.next
  live : ∀ g ∈ l.live, ∀ o ∈ older, o.1 < g.1

variable {l : Ledger} {older : List (Nat × Note)}

theorem Below.make (h : l.Below older) (n : Note) :
    Below ⟨l.next + 1, (l.next, n) :: l.live⟩ older :=
  ⟨fun o ho => Nat.lt_succ_of_lt (h.next o ho), List.forall_mem_cons.mpr ⟨h.next, h.live⟩⟩

theorem Below.note (h : l.Below older) (n : Note) : (l.note n).Below older := by
  cases n with
  | enter p => exact h.make (.enter p)
  | begin file => exact h.make (.begin file)
  | leave guard => exact ⟨h.next, fun g hg => h.live g (List.mem_filter.mp hg).1⟩
  | _ => exact h

theorem allows_above {n : Note} (h : l.Allows n) : (l.above older).Allows n := by
  cases n with
  | leave guard =>
      obtain ⟨g, hhead, hguard⟩ := Option.map_eq_some_iff.mp h
      refine Option.map_eq_some_iff.mpr ⟨g, ?_, hguard⟩
      show (l.live ++ older).head? = some g
      rw [List.head?_append, hhead]
      rfl
  | _ => exact h

/-- A change that keeps the order does not reach the older guards. -/
theorem note_above (h : l.Below older) {n : Note} (hallows : l.Allows n) :
    (l.above older).note n = (l.note n).above older := by
  cases n with
  | leave guard =>
      obtain ⟨g, hhead, rfl⟩ := Option.map_eq_some_iff.mp hallows
      have hkept : older.filter (·.1 != g.1) = older := by
        refine List.filter_eq_self.mpr fun o ho => ?_
        simpa using Nat.ne_of_lt (h.live g (List.mem_of_mem_head? hhead) o ho)
      show Ledger.mk l.next ((l.live ++ older).filter _) = _
      rw [List.filter_append, hkept]
      rfl
  | _ => rfl

theorem nested_above (h : l.Below older) {ns : List Note} (hns : l.Nested ns) :
    (l.above older).Nested ns ∧ (l.above older).noteAll ns = (l.noteAll ns).above older := by
  induction ns generalizing l with
  | nil => exact ⟨trivial, rfl⟩
  | cons n ns ih =>
      obtain ⟨hnested, heq⟩ := ih (h.note n) hns.2
      have hnote := note_above h hns.1
      rw [← hnote] at hnested heq
      exact ⟨⟨allows_above hns.1, hnested⟩, heq⟩

end Ledger

namespace Monitor

/-- One monitor comes from another by changes that keep the order, and no guard of theirs is left
over. -/
def Settles (m m' : Monitor) : Prop :=
  ∃ ns, m.ledger.Nested ns ∧ (m.ledger.noteAll ns).live = [] ∧ m' = m.noteAll ns

namespace Settles

variable {m m' m'' : Monitor}

theorem refl (m : Monitor) : m.Settles m := ⟨[], trivial, rfl, rfl⟩

/-- **When no guard is left over, everything is as it was before.** -/
theorem activity_eq (h : m.Settles m') : m'.activity = m.activity := by
  obtain ⟨ns, hns, hlive, rfl⟩ := h
  rw [((follows_ledger m).noteAll hns).activity, hlive]
  rfl

theorem trans (h : m.Settles m') (h' : m'.Settles m'') : m.Settles m'' := by
  obtain ⟨ns, hns, hlive, rfl⟩ := h
  obtain ⟨ns', hns', hlive', rfl⟩ := h'
  have hledger : m.ledger.noteAll ns = (m.noteAll ns).ledger := by
    have hnext := ((follows_ledger m).noteAll hns).next
    cases hl : m.ledger.noteAll ns with
    | mk next live =>
        rw [hl] at hnext hlive
        rw [ledger, ← hnext, ← hlive]
  refine ⟨ns ++ ns', Ledger.nested_append.mpr ⟨hns, hledger ▸ hns'⟩, ?_, ?_⟩
  · rw [Ledger.noteAll, List.foldl_append]
    show (((m.ledger.noteAll ns)).noteAll ns').live = []
    rw [hledger, hlive']
  · rw [noteAll, noteAll, noteAll, List.foldl_append]

end Settles

/-- A guard that is made is the only one in a new ledger, below those that come after it. -/
theorem ledger_note {n : Note} (h : n.MakesGuard) (m : Monitor) :
    m.ledger.Allows n ∧ m.ledger.note n = (m.note n).ledger.above [(m.guards.length, n)] ∧
      (m.note n).ledger.Below [(m.guards.length, n)] := by
  have hlength : (m.guards ++ [some m.activity]).length = m.guards.length + 1 := by simp
  cases n with
  | enter p | begin file =>
      refine ⟨trivial, ?_, ?_, ?_⟩
      · show Ledger.mk _ _ = Ledger.mk (m.guards ++ [some m.activity]).length _
        rw [hlength]
        rfl
      · intro o ho
        rw [List.mem_singleton.mp ho]
        show m.guards.length < (m.guards ++ [some m.activity]).length
        omega
      · exact fun g hg => absurd hg List.not_mem_nil
  | _ => exact h.elim

/-- **Work under a guard settles if the work does.** -/
theorem settles_within {α : Type} {n : Note} (hn : n.MakesGuard) {m : Monitor}
    {work : Monitor → α × Monitor} (hwork : (m.note n).Settles (work (m.note n)).2) :
    m.Settles (m.within n work).2 := by
  obtain ⟨ns, hns, hlive, hafter⟩ := hwork
  obtain ⟨hallows, hledger, hbelow⟩ := ledger_note hn m
  obtain ⟨hnested, hend⟩ := Ledger.nested_above hbelow hns
  rw [← hledger] at hnested hend
  have hlast : ((m.ledger.note n).noteAll ns).live = [(m.guards.length, n)] := by
    rw [hend, Ledger.above, hlive]
    rfl
  refine ⟨n :: (ns ++ [.leave m.guards.length]), ⟨hallows, Ledger.nested_append.mpr ⟨hnested, ?_⟩⟩,
    ?_, ?_⟩
  · refine ⟨?_, trivial⟩
    show ((m.ledger.note n).noteAll ns).live.head?.map Prod.fst = _
    rw [hlast]
    rfl
  · show ((m.ledger.note n).noteAll (ns ++ [.leave m.guards.length])).live = []
    rw [Ledger.noteAll, List.foldl_append]
    show ((m.ledger.note n).noteAll ns).live.filter _ = []
    rw [hlast]
    simp
  · show (work (m.note n)).2.leave m.guards.length = (m.note n).noteAll (ns ++ _)
    rw [hafter, noteAll, noteAll, List.foldl_append]
    rfl

end Monitor

/-! ## Formatting -/

namespace Formatter

/-- A phase that makes no changes of its own. -/
theorem settles_phase {α : Type} (phase : Phase) (result : α) (m : Monitor) :
    m.Settles (m.within (.enter phase) fun m => (result, m)).2 :=
  Monitor.settles_within (n := .enter phase) trivial (.refl _)

theorem settles_sortNoted (g : Grammars) (p : Parser) (r : Ranking) (source : Text) (m : Monitor) :
    m.Settles (sortNoted g p r source m).2 := by
  have hparsed := settles_phase .parsing (p.parse g source) m
  unfold sortNoted
  dsimp only
  split
  -- there is no tree
  · exact hparsed
  · rename_i tree _
    have hfound := hparsed.trans (settles_phase .extraction tree.units _)
    split
    -- there are no class units
    · exact hfound
    · exact (hfound.trans (settles_phase .sorting _ _)).trans (settles_phase .editing _ _)

/-- **The changes that a formatter makes keep the order**, also when it ends with an error, in the
configuration or from the parser. -/
theorem settles_formatWith (g : Grammars) (fs : FileSystem) (f : Formatter) (p : Parser)
    (path source : Text) : f.monitor.Settles (f.formatWith g fs p path source).2.monitor := by
  unfold formatWith
  split
  rename_i result resolver monitor hend
  show f.monitor.Settles ((result, resolver), monitor).2
  rw [← hend]
  refine Monitor.settles_within (n := .begin path) trivial ?_
  split
  rename_i found resolver' m hfound
  have hfile := settles_phase .configResolution (f.resolver.vocabularyFor fs path)
    (f.monitor.note (.begin path))
  rw [hfound] at hfile
  split
  · exact hfile
  · exact hfile.trans (settles_sortNoted g p _ source m)

end Formatter

/-- **What is noted follows the guards.** While guards are left in turn, the phase and the file are
those of the youngest guards that are live, or else what was noted at first, and with no guard left
over everything is as it was. So it is after a file was formatted, well or not, and whatever the
grammars allow. -/
theorem notes_follow_guards :
    (∀ (m : Monitor) (ns before after : List Note), m.ledger.Nested ns → ns = before ++ after →
      (m.noteAll before).activity.phase = (m.ledger.noteAll before).phase?.or m.activity.phase ∧
      (m.noteAll before).activity.file = (m.ledger.noteAll before).file?.or m.activity.file ∧
      ((m.ledger.noteAll before).live = [] → (m.noteAll before).activity = m.activity)) ∧
    (∀ (fs : FileSystem) (f : Formatter) (p : Parser) (path source : Text),
      f.monitor.Settles (f.format fs p path source).2.monitor ∧
      (f.format fs p path source).2.monitor.activity = f.monitor.activity) ∧
    ∀ (g : Grammars) (fs : FileSystem) (f : Formatter) (p : Parser) (path source : Text),
      f.monitor.Settles (f.formatWith g fs p path source).2.monitor ∧
      (f.formatWith g fs p path source).2.monitor.activity = f.monitor.activity := by
  refine ⟨?_, ?_, ?_⟩
  · rintro m ns before after hns rfl
    have hbefore := (Ledger.nested_append.mp hns).1
    have hactivity := ((follows_ledger m).noteAll hbefore).activity
    refine ⟨?_, ?_, fun hlive => Monitor.Settles.activity_eq ⟨before, hbefore, hlive, rfl⟩⟩
    · rw [hactivity]
      exact held_eq_youngest Activity.phase Note.phase? (fun _ _ => rfl) _ _
    · rw [hactivity]
      exact held_eq_youngest Activity.file Note.file? (fun _ _ => rfl) _ _
  · intro fs f p path source
    have hsettles := Formatter.settles_formatWith .total fs f p path source
    exact ⟨hsettles, hsettles.activity_eq⟩
  · intro g fs f p path source
    have hsettles := Formatter.settles_formatWith g fs f p path source
    exact ⟨hsettles, hsettles.activity_eq⟩

/-- A monitor at work already, with a guard of its own. -/
def busyMonitor : Monitor :=
  { activity := ⟨some .editing, none⟩, progress := ⟨0, 2⟩, guards := [some {}] }

/-- A file with a phase in it and a phase in that, all of them left again. -/
def fileNotes : List Note :=
  [.begin "a.css".toList, .enter .parsing, .increment, .enter .sorting, .leave 3, .leave 2,
    .leave 1]

theorem nested_fileNotes : busyMonitor.ledger.Nested fileNotes :=
  ⟨trivial, trivial, trivial, trivial, rfl, rfl, rfl, trivial⟩

/-- A file for which there is no tree. -/
def treeless : Except Error Text × Formatter :=
  Formatter.formatWith ⟨fun _ => none, fun _ _ => false⟩ (FileSystem.empty [])
    { monitor := busyMonitor } .css "a.css".toList ".x{}".toList

theorem notes_follow_guards_busy :
    (busyMonitor.noteAll (fileNotes.take 4)).activity.phase = some .sorting ∧
    (busyMonitor.noteAll (fileNotes.take 5)).activity.phase = some .parsing ∧
    (busyMonitor.noteAll (fileNotes.take 6)).activity.file = some "a.css".toList ∧
    (busyMonitor.noteAll (fileNotes.take 6)).activity.phase = some .editing ∧
    (busyMonitor.noteAll fileNotes).activity = busyMonitor.activity ∧
    treeless.1 = .error (.parse "css".toList "parser produced no tree".toList) ∧
      treeless.2.monitor.guards.length = 4 ∧
      treeless.2.monitor.activity = busyMonitor.activity := by
  have hat (k : Nat) := notes_follow_guards.1 busyMonitor fileNotes (fileNotes.take k)
    (fileNotes.drop k) nested_fileNotes (List.take_append_drop k fileNotes).symm
  exact ⟨(hat 4).1, (hat 5).1, (hat 6).2.1, (hat 6).1, (hat 7).2.2 rfl, rfl,
    by decide +kernel, (notes_follow_guards.2.2 _ _ _ _ _ _).2⟩

end ClassSort
