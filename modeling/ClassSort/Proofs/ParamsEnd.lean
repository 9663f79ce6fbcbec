import ClassSort.Proofs.CommentedParams

/-!
# Where the parameters of a rule end

The reader of parameters carries four things along: the depth of brackets, the string it is in,
whether a backslash has just come, and the last character. Here its answer is compared with one that
carries nothing. A text has its strings closed if it is made of strings and of characters outside
them (`Unquoted`), and the depth of brackets is counted in the characters outside (`depthOf`). **The
parameters end at the first `;` or brace behind a text with its strings closed and at depth zero**,
unless an interpolation or a comment begins before it, or with it.

The reader looks at nothing behind that place, so the answer stays the same whatever comes there.
-/

namespace ClassSort.Stylesheet

/-! ## Strings and brackets -/

/-- What can stand between the quotes of a string. -/
inductive StringBody (quote : Char) : Text → Prop where
  | nil : StringBody quote []
  | char {c : Char} {cs : Text} (hquote : c ≠ quote) (hslash : c ≠ '\\') (h : StringBody quote cs) :
      StringBody quote (c :: cs)
  /-- A backslash takes the next character along, whatever it is. -/
  | escape {c : Char} {cs : Text} (h : StringBody quote cs) : StringBody quote ('\\' :: c :: cs)

/-- A text with its strings closed, and the characters of it that are outside strings. -/
inductive Unquoted : Text → Text → Prop where
  | nil : Unquoted [] []
  | char {c : Char} {cs bare : Text} (hsingle : c ≠ '\'') (hdouble : c ≠ '"')
      (h : Unquoted cs bare) : Unquoted (c :: cs) (c :: bare)
  | string {quote : Char} {body cs bare : Text} (hquote : quote = '\'' ∨ quote = '"')
      (hbody : StringBody quote body) (h : Unquoted cs bare) :
      Unquoted (quote :: (body ++ quote :: cs)) bare

/-- The depth behind one more character. A closing bracket that closes nothing has no effect. -/
def nest (depth : Nat) (c : Char) : Nat :=
  if c = '[' ∨ c = '(' then depth + 1 else if c = ']' ∨ c = ')' then depth - 1 else depth

/-- The depth of brackets and parentheses behind a text without strings. -/
def depthOf (bare : Text) : Nat := bare.foldl nest 0

namespace Reader

variable {r : Reader}

theorem after_append (r : Reader) (x y : Text) : r.after (x ++ y) = (r.after x).after y :=
  List.foldl_append

theorem quoting_after (r : Reader) (cs : Text) :
    (r.after cs).quoting = cs.foldl Quoting.step r.quoting := by
  induction cs generalizing r with
  | nil => rfl
  | cons c cs ih => exact ih (r.step c)

theorem step_outside (h : r.quoting = .outside) (c : Char) : (r.step c).depth = nest r.depth c := by
  unfold step nest
  rw [h]
  simp

theorem step_inside {quote : Char} {escaped : Bool} (h : r.quoting = .inside quote escaped)
    (c : Char) : (r.step c).depth = r.depth := by
  unfold step
  rw [h]

/-- Inside a string the reader goes on to its end. -/
theorem after_body {quote : Char} {body : Text} (h : StringBody quote body) : ∀ {r : Reader},
    r.quoting = .inside quote false →
    (r.after body).quoting = .inside quote false ∧ (r.after body).depth = r.depth := by
  induction h with
  | nil => exact fun h => ⟨h, rfl⟩
  | @char c cs hquote hslash _ ih =>
      intro r hr
      have hstep : (r.step c).quoting = .inside quote false := by
        show r.quoting.step c = _
        rw [hr]
        simp [Quoting.step, hquote, hslash]
      obtain ⟨hquoting, hdepth⟩ := ih hstep
      exact ⟨hquoting, hdepth.trans (step_inside hr c)⟩
  | @escape c cs _ ih =>
      intro r hr
      have hstep : (r.step '\\').quoting = .inside quote true := by
        show r.quoting.step '\\' = _
        rw [hr]
        rfl
      have hstep' : ((r.step '\\').step c).quoting = .inside quote false := by
        show (r.step '\\').quoting.step c = _
        rw [hstep]
        rfl
      obtain ⟨hquoting, hdepth⟩ := ih hstep'
      exact ⟨hquoting, hdepth.trans ((step_inside hstep c).trans (step_inside hr '\\'))⟩

/-- **Behind a text with its strings closed the reader is outside strings**, at the depth of the
characters outside them. -/
theorem after_unquoted {cs bare : Text} (h : Unquoted cs bare) : ∀ {r : Reader},
    r.quoting = .outside →
    (r.after cs).quoting = .outside ∧ (r.after cs).depth = bare.foldl nest r.depth := by
  induction h with
  | nil => exact fun h => ⟨h, rfl⟩
  | @char c cs bare hsingle hdouble _ ih =>
      intro r hr
      have hstep : (r.step c).quoting = .outside := by
        show r.quoting.step c = _
        rw [hr]
        simp [Quoting.step, hsingle, hdouble]
      obtain ⟨hquoting, hdepth⟩ := ih hstep
      rw [step_outside hr] at hdepth
      exact ⟨hquoting, hdepth⟩
  | @string quote body cs bare hquote hbody _ ih =>
      intro r hr
      have hopen : (r.step quote).quoting = .inside quote false ∧
          (r.step quote).depth = r.depth := by
        rw [step_outside hr]
        refine ⟨?_, ?_⟩
        · show r.quoting.step quote = _
          rw [hr]
          rcases hquote with rfl | rfl <;> rfl
        · rcases hquote with rfl | rfl <;> rfl
      obtain ⟨hinside, hsame⟩ := after_body hbody hopen.1
      have hclose : (((r.step quote).after body).step quote).quoting = .outside := by
        show ((r.step quote).after body).quoting.step quote = _
        rw [hinside]
        rcases hquote with rfl | rfl <;> rfl
      obtain ⟨hquoting, hdepth⟩ := ih hclose
      have hafter : r.after (quote :: (body ++ quote :: cs)) =
          (((r.step quote).after body).step quote).after cs := after_append (r.step quote) body _
      rw [step_inside hinside, hsame, hopen.2] at hdepth
      rw [hafter]
      exact ⟨hquoting, hdepth⟩

end Reader

/-- A text that closes the string a reader is in, and all strings behind it. -/
def Closes : Quoting → Text → Prop
  | .outside, cs => ∃ bare, Unquoted cs bare
  | .inside quote false, cs =>
    ∃ body rest bare, cs = body ++ quote :: rest ∧ StringBody quote body ∧ Unquoted rest bare
  | .inside quote true, cs =>
    ∃ c body rest bare, cs = c :: (body ++ quote :: rest) ∧ StringBody quote body ∧
      Unquoted rest bare

theorem closes_of_foldl {cs : Text} : ∀ {q : Quoting}, cs.foldl Quoting.step q = .outside →
    Closes q cs := by
  induction cs with
  | nil =>
      rintro q (rfl : q = .outside)
      exact ⟨[], .nil⟩
  | cons c cs ih =>
      intro q h
      have hrest := ih (q := q.step c) h
      cases q with
      | outside =>
          by_cases hc : c = '\'' ∨ c = '"'
          · rw [show Quoting.step .outside c = .inside c false by simp [Quoting.step, hc]] at hrest
            obtain ⟨body, rest, bare, rfl, hbody, hbare⟩ := hrest
            exact ⟨bare, .string hc hbody hbare⟩
          · rw [show Quoting.step .outside c = .outside by simp [Quoting.step, hc]] at hrest
            obtain ⟨bare, hbare⟩ := hrest
            rw [not_or] at hc
            exact ⟨c :: bare, .char hc.1 hc.2 hbare⟩
      | inside quote escaped =>
          cases escaped with
          | true =>
              obtain ⟨body, rest, bare, rfl, hbody, hbare⟩ := hrest
              exact ⟨c, body, rest, bare, rfl, hbody, hbare⟩
          | false =>
              by_cases hslash : c = '\\'
              · subst hslash
                obtain ⟨c, body, rest, bare, rfl, hbody, hbare⟩ := hrest
                exact ⟨'\\' :: c :: body, rest, bare, rfl, .escape hbody, hbare⟩
              · by_cases hquote : c = quote
                · subst hquote
                  rw [show Quoting.step (.inside c false) c = .outside by
                    simp [Quoting.step, hslash]] at hrest
                  obtain ⟨bare, hbare⟩ := hrest
                  exact ⟨[], cs, bare, rfl, .nil, hbare⟩
                · rw [show Quoting.step (.inside quote false) c = .inside quote false by
                    simp [Quoting.step, hslash, hquote]] at hrest
                  obtain ⟨body, rest, bare, rfl, hbody, hbare⟩ := hrest
                  exact ⟨c :: body, rest, bare, rfl, .char hquote hslash hbody, hbare⟩

/-- **The reader is outside strings exactly behind the texts with their strings closed.** -/
theorem Reader.outside_iff {front : Text} :
    (Reader.after {} front).quoting = .outside ↔ ∃ bare, Unquoted front bare := by
  constructor
  · intro h
    rw [quoting_after] at h
    exact closes_of_foldl h
  · rintro ⟨bare, hbare⟩
    exact (after_unquoted hbare rfl).1

/-! ## The answer of the reader -/

namespace Reader

/-- Whether the reader gives up somewhere in a text. -/
def breaks : Reader → Text → Bool
  | _, [] => false
  | r, c :: cs => r.givesUp c || (r.step c).breaks cs

theorem breaks_iff {r : Reader} {cs : Text} : r.breaks cs = true ↔
    ∃ front c back, cs = front ++ c :: back ∧ (r.after front).givesUp c = true := by
  induction cs generalizing r with
  | nil => simp [breaks]
  | cons d cs ih =>
      rw [breaks, Bool.or_eq_true, ih]
      constructor
      · rintro (h | ⟨front, c, back, rfl, h⟩)
        · exact ⟨[], d, cs, rfl, h⟩
        · exact ⟨d :: front, c, back, rfl, h⟩
      · rintro ⟨front, c, back, hsplit, h⟩
        cases front with
        | nil =>
            obtain ⟨rfl, rfl⟩ := List.cons.inj hsplit
            exact .inl h
        | cons d' front =>
            obtain ⟨rfl, rfl⟩ := List.cons.inj hsplit
            exact .inr ⟨front, c, back, rfl, h⟩

theorem ends_of_runs {r : Reader} {front back : Text} {c : Char}
    (h : r.runs (front ++ c :: back) = true) : (r.after front).ends c = false := by
  induction front generalizing r with
  | nil => exact (runs_cons h).1
  | cons d front ih => exact ih (runs_cons h).2

/-- Every text has a place where the rule ends, be it the end of the text. -/
theorem exists_end (r : Reader) (cs : Text) : ∃ front back, cs = front ++ back ∧
    r.runs front = true ∧ ∀ c ∈ back.head?, (r.after front).ends c = true := by
  induction cs generalizing r with
  | nil => exact ⟨[], [], rfl, rfl, by simp⟩
  | cons c cs ih =>
      cases hends : r.ends c with
      | true => exact ⟨[], c :: cs, rfl, rfl, by simpa [after] using hends⟩
      | false =>
          obtain ⟨front, back, rfl, hruns, hend⟩ := ih (r.step c)
          exact ⟨c :: front, back, rfl, by rw [runs, hends, hruns]; rfl, hend⟩

/-- **The reader answers with what stands before that place**, if it does not give up before it or
at the very character that ends the rule. -/
theorem read_of_end {r : Reader} {front back : Text} (hruns : r.runs front = true)
    (hend : ∀ c ∈ back.head?, (r.after front).ends c = true) :
    r.read (front ++ back) = if r.breaks (front ++ back.take 1) then none else some front := by
  induction front generalizing r with
  | nil =>
      cases back with
      | nil => rfl
      | cons c back =>
          have hends : r.ends c = true := hend c rfl
          simp [read_cons, breaks, hends]
  | cons c front ih =>
      obtain ⟨hends, hrest⟩ := runs_cons hruns
      rw [List.cons_append, List.cons_append, read_cons, hends, ih hrest hend, breaks]
      cases r.givesUp c with
      | true => rfl
      | false =>
          show Option.map _ (if _ then none else some front) = if _ then none else some (c :: front)
          split <;> simp_all

theorem previous_after_concat (r : Reader) (front : Text) (a : Char) :
    (r.after (front ++ [a])).previous = a := by
  rw [after_append]
  rfl

/-- What makes the reader give up, in terms of the text before it. -/
theorem givesUp_iff {front : Text} {c : Char} : (Reader.after {} front).givesUp c = true ↔
    ∃ before a bare, front = before ++ [a] ∧ Unquoted front bare ∧
      (c = '{' ∧ (a = '#' ∨ a = '@') ∨ c = '*' ∧ a = '/') := by
  unfold givesUp
  simp only [Bool.and_eq_true, Bool.or_eq_true, beq_iff_eq, outside_iff]
  rcases List.eq_nil_or_concat front with rfl | ⟨before, a, rfl⟩
  · -- nothing has been read that could begin an interpolation or a comment
    simp [after]
  · rw [List.concat_eq_append, previous_after_concat]
    constructor
    · rintro ⟨⟨bare, hbare⟩, h⟩
      exact ⟨before, a, bare, rfl, hbare, h⟩
    · rintro ⟨before', a', bare, hsplit, hbare, h⟩
      obtain ⟨-, rfl⟩ : before = before' ∧ a = a' := by simpa using hsplit
      exact ⟨⟨bare, hbare⟩, h⟩

/-- What ends a rule, in terms of the text before it. -/
theorem ends_iff {front : Text} {c : Char} : (Reader.after {} front).ends c = true ↔
    ∃ bare, Unquoted front bare ∧ depthOf bare = 0 ∧ (c = ';' ∨ c = '{' ∨ c = '}') := by
  unfold ends
  simp only [Bool.and_eq_true, Bool.or_eq_true, beq_iff_eq, or_assoc]
  constructor
  · rintro ⟨⟨houtside, hdepth⟩, hc⟩
    obtain ⟨bare, hbare⟩ := outside_iff.mp houtside
    exact ⟨bare, hbare, (after_unquoted hbare rfl).2.symm.trans hdepth, hc⟩
  · rintro ⟨bare, hbare, hdepth, hc⟩
    obtain ⟨houtside, hsame⟩ := after_unquoted hbare (r := {}) rfl
    exact ⟨⟨houtside, hsame.trans hdepth⟩, hc⟩

end Reader

/-! ## Offsets -/

/-- The offset at which the parameters end that begin at `start`. -/
def paramsEnd? (source : Text) (start : Nat) : Option Nat :=
  (Text.drop? source start).bind fun cs => (params? cs).map (start + Text.size ·)

/-- The character `c` stands at `pos`. From `start` up to there is `front`, which has its strings
closed, and `bare` is what is outside of them. -/
structure ReachedAt (source : Text) (start pos : Nat) (front bare : Text) (c : Char) : Prop where
  slice : Text.slice? source ⟨start, pos⟩ = some front
  next : ∃ back, Text.drop? source pos = some (c :: back)
  unquoted : Unquoted front bare

/-- A `;` or a brace stands at `pos`, outside strings and at depth zero. -/
def EndsAt (source : Text) (start pos : Nat) : Prop :=
  ∃ front bare c, ReachedAt source start pos front bare c ∧ depthOf bare = 0 ∧
    (c = ';' ∨ c = '{' ∨ c = '}')

/-- The second character of an interpolation or of a comment stands at `pos`, outside strings. -/
def BreaksAt (source : Text) (start pos : Nat) : Prop :=
  ∃ front a bare c, ReachedAt source start pos (front ++ [a]) bare c ∧
    (c = '{' ∧ (a = '#' ∨ a = '@') ∨ c = '*' ∧ a = '/')

/-- The first place where the rule can end, or the end of the source if there is none. -/
structure FirstEnd (source : Text) (start stop : Nat) : Prop where
  ends : EndsAt source start stop ∨ stop = Text.size source
  first : ∀ pos, EndsAt source start pos → stop ≤ pos

variable {source cs : Text} {start pos : Nat}

theorem reachedAt_iff (hcs : Text.drop? source start = some cs) {front bare : Text} {c : Char} :
    ReachedAt source start pos front bare c ↔
      (∃ back, cs = front ++ c :: back) ∧ start + Text.size front = pos ∧ Unquoted front bare := by
  obtain ⟨before, rfl, rfl⟩ := Text.drop?_eq_some.mp hcs
  constructor
  · rintro ⟨hfront, ⟨back, hnext⟩, hbare⟩
    obtain ⟨before', behind, hsource, hstart, hpos⟩ := Text.slice?_eq_some.mp hfront
    obtain ⟨upto, hsource', hupto⟩ := Text.drop?_eq_some.mp hnext
    rw [List.append_assoc] at hsource
    obtain ⟨rfl, rfl⟩ := Text.append_inj_size hsource hstart.symm
    rw [← List.append_assoc] at hsource'
    obtain ⟨-, rfl⟩ := Text.append_inj_size hsource' (by rw [Text.size_append, hpos, hupto])
    exact ⟨⟨back, rfl⟩, hpos, hbare⟩
  · rintro ⟨⟨back, rfl⟩, rfl, hbare⟩
    refine ⟨?_, ⟨back, ?_⟩, hbare⟩
    · exact Text.slice?_eq_some.mpr ⟨before, c :: back, by simp, rfl, rfl⟩
    · exact Text.drop?_eq_some.mpr ⟨before ++ front, by simp, Text.size_append _ _⟩

theorem endsAt_iff (hcs : Text.drop? source start = some cs) : EndsAt source start pos ↔
    ∃ front c back, cs = front ++ c :: back ∧ start + Text.size front = pos ∧
      (Reader.after {} front).ends c = true := by
  unfold EndsAt
  simp only [reachedAt_iff hcs, Reader.ends_iff]
  constructor
  · rintro ⟨front, bare, c, ⟨⟨back, hsplit⟩, hpos, hbare⟩, hdepth, hc⟩
    exact ⟨front, c, back, hsplit, hpos, bare, hbare, hdepth, hc⟩
  · rintro ⟨front, c, back, hsplit, hpos, bare, hbare, hdepth, hc⟩
    exact ⟨front, bare, c, ⟨⟨back, hsplit⟩, hpos, hbare⟩, hdepth, hc⟩

theorem breaksAt_iff (hcs : Text.drop? source start = some cs) : BreaksAt source start pos ↔
    ∃ front c back, cs = front ++ c :: back ∧ start + Text.size front = pos ∧
      (Reader.after {} front).givesUp c = true := by
  unfold BreaksAt
  simp only [reachedAt_iff hcs, Reader.givesUp_iff]
  constructor
  · rintro ⟨front, a, bare, c, ⟨⟨back, hsplit⟩, hpos, hbare⟩, hc⟩
    exact ⟨front ++ [a], c, back, hsplit, hpos, front, a, bare, rfl, hbare, hc⟩
  · rintro ⟨_, c, back, hsplit, hpos, front, a, bare, rfl, hbare, hc⟩
    exact ⟨front, a, bare, c, ⟨⟨back, hsplit⟩, hpos, hbare⟩, hc⟩

/-- The answer in offsets, from the place where the rule ends. -/
theorem paramsEnd?_of_end (before : Text) {front back : Text} (hruns : Reader.runs {} front = true)
    (hend : ∀ c ∈ back.head?, (Reader.after {} front).ends c = true) :
    paramsEnd? (before ++ (front ++ back)) (Text.size before) =
      if Reader.breaks {} (front ++ back.take 1) then none
      else some (Text.size before + Text.size front) := by
  have hcs : Text.drop? (before ++ (front ++ back)) (Text.size before) = some (front ++ back) :=
    Text.drop?_eq_some.mpr ⟨before, rfl, rfl⟩
  have hread : params? (front ++ back) = _ := Reader.read_of_end hruns hend
  unfold paramsEnd?
  rw [hcs, Option.bind_some, hread]
  split <;> rfl

theorem firstEnd_of_runs (hcs : Text.drop? source start = some cs) {front back : Text}
    (hsplit : cs = front ++ back) (hruns : Reader.runs {} front = true)
    (hend : ∀ c ∈ back.head?, (Reader.after {} front).ends c = true) :
    FirstEnd source start (start + Text.size front) := by
  constructor
  · cases back with
    | nil =>
        obtain ⟨before, hsource, hbefore⟩ := Text.drop?_eq_some.mp hcs
        rw [List.append_nil] at hsplit
        exact .inr (by rw [hsource, Text.size_append, hbefore, hsplit])
    | cons c back => exact .inl ((endsAt_iff hcs).mpr ⟨front, c, back, hsplit, rfl, hend c rfl⟩)
  · intro pos hpos
    obtain ⟨front', c, back', hsplit', rfl, hends⟩ := (endsAt_iff hcs).mp hpos
    -- an end before `front` does would have stopped the reader
    by_contra hlt
    obtain ⟨kept, rfl, hback⟩ := Edit.append_after (hsplit'.symm.trans hsplit) (by omega)
    cases kept with
    | nil =>
        rw [List.append_nil] at hlt
        omega
    | cons d kept =>
        obtain ⟨rfl, -⟩ := List.cons.inj hback
        rw [Reader.ends_of_runs hruns] at hends
        exact absurd hends (by simp)

/-- Giving up at or before the end of the rule, in offsets. -/
theorem breaks_iff_breaksAt (hcs : Text.drop? source start = some cs) {front back : Text}
    (hsplit : cs = front ++ back) : Reader.breaks {} (front ++ back.take 1) = true ↔
      ∃ pos, pos ≤ start + Text.size front ∧ BreaksAt source start pos := by
  rw [Reader.breaks_iff]
  constructor
  · rintro ⟨front', c, back', heq, hgives⟩
    have hcut : cs = front' ++ c :: (back' ++ back.drop 1) := by
      calc cs = front ++ back.take 1 ++ back.drop 1 := by
            rw [List.append_assoc, List.take_append_drop, hsplit]
        _ = front' ++ c :: (back' ++ back.drop 1) := by rw [heq, List.append_assoc]; rfl
    have hshort : front'.length ≤ front.length := by
      have hlength := congrArg List.length heq
      simp only [List.length_append, List.length_cons, List.length_take] at hlength
      omega
    have hfront' : front' <+: front ++ back.take 1 := heq ▸ List.prefix_append front' _
    have hsize := size_le_of_isPrefix
      (List.prefix_of_prefix_length_le hfront' (List.prefix_append _ _) hshort)
    exact ⟨start + Text.size front', by omega, (breaksAt_iff hcs).mpr ⟨_, _, _, hcut, rfl, hgives⟩⟩
  · rintro ⟨pos, hle, hbreaks⟩
    obtain ⟨front', c, back', hcut, rfl, hgives⟩ := (breaksAt_iff hcs).mp hbreaks
    obtain ⟨kept, rfl, hback⟩ := Edit.append_after (hcut.symm.trans hsplit) (by omega)
    cases kept with
    | nil =>
        rw [List.nil_append] at hback
        exact ⟨front', c, [], by rw [← hback]; simp, hgives⟩
    | cons d kept =>
        obtain ⟨rfl, -⟩ := List.cons.inj hback
        exact ⟨front', c, kept ++ back.take 1, by simp, hgives⟩

/--
**Parameters end at the first `;` or brace outside strings and brackets.**

Let `start` be a place between two characters. There is a first place where the rule can end, or
else it is the end of the source. If an interpolation or a comment begins at or before it, outside
strings, there is no answer, and otherwise that place is the answer. An answer before the end of the
source depends on nothing behind the character there.
-/
theorem params_end_at_first_separator {source : Text} {start : Nat}
    (hstart : ∃ cs, Text.drop? source start = some cs) :
    (∃ stop, FirstEnd source start stop ∧
      ((∃ pos, pos ≤ stop ∧ BreaksAt source start pos) → paramsEnd? source start = none) ∧
      ((¬ ∃ pos, pos ≤ stop ∧ BreaksAt source start pos) →
        paramsEnd? source start = some stop)) ∧
    (∀ stop, paramsEnd? source start = some stop → stop < Text.size source →
      ∃ upto c behind, source = upto ++ c :: behind ∧ Text.size upto = stop ∧
        ∀ other, paramsEnd? (upto ++ c :: other) start = some stop) := by
  obtain ⟨cs, hcs⟩ := hstart
  obtain ⟨before, rfl, rfl⟩ := Text.drop?_eq_some.mp hcs
  obtain ⟨front, back, rfl, hruns, hend⟩ := Reader.exists_end {} cs
  have hanswer := paramsEnd?_of_end before hruns hend
  constructor
  · refine ⟨Text.size before + Text.size front, firstEnd_of_runs hcs rfl hruns hend, ?_, ?_⟩
    · intro hbreaks
      rw [hanswer, if_pos ((breaks_iff_breaksAt hcs rfl).mpr hbreaks)]
    · intro hcalm
      rw [hanswer, if_neg (mt (breaks_iff_breaksAt hcs rfl).mp hcalm)]
  · intro stop hstop hlt
    have hsame := hanswer.symm.trans hstop
    obtain rfl : Text.size before + Text.size front = stop := by
      split at hsame
      · exact absurd hsame (by simp)
      · exact Option.some.inj hsame
    cases back with
    | nil => simp at hlt
    | cons c behind =>
        refine ⟨before ++ front, c, behind, ?_, Text.size_append _ _, ?_⟩
        · rw [List.append_assoc]
        · intro other
          -- the reader comes to the same character in the same state
          have hother : paramsEnd? (before ++ (front ++ c :: other)) (Text.size before) = _ :=
            paramsEnd?_of_end before hruns (by simpa using hend)
          rw [List.append_assoc, hother]
          exact hsame

/-- A bracket that closes nothing, a string with an escaped quote, and separators in both. -/
def nestedRule : Text := "@apply é] [a;'\\';]'] b; c /* d".toList

/-- Its parameters go on to the `;` behind `b`, and the comment behind that is not looked at. -/
theorem params_end_at_first_separator_nested :
    paramsEnd? nestedRule 6 = some 23 ∧
    (∃ stop, FirstEnd nestedRule 6 stop ∧
      ((¬ ∃ pos, pos ≤ stop ∧ BreaksAt nestedRule 6 pos) → paramsEnd? nestedRule 6 = some stop)) ∧
    ∃ upto c behind, nestedRule = upto ++ c :: behind ∧ Text.size upto = 23 ∧
      ∀ other, paramsEnd? (upto ++ c :: other) 6 = some 23 := by
  have hstart : ∃ cs, Text.drop? nestedRule 6 = some cs :=
    ⟨" é] [a;'\\';]'] b; c /* d".toList, by decide +kernel⟩
  have hstop : paramsEnd? nestedRule 6 = some 23 := by decide +kernel
  have hsize : 23 < Text.size nestedRule := by decide +kernel
  obtain ⟨⟨stop, hfirst, -, hcalm⟩, hlocal⟩ := params_end_at_first_separator hstart
  exact ⟨hstop, ⟨stop, hfirst, hcalm⟩, hlocal 23 hstop hsize⟩

end ClassSort.Stylesheet
