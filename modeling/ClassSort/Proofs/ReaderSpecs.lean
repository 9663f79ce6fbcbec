import ClassSort.Proofs.Nesting
import ClassSort.Proofs.UnitBlocks
import ClassSort.Script.Reader

/-!
# What the readers promise

Every reader of expressions passes over the lexemes it reads, and what it answers with is
a block: the units of the expression lie inside it, in order, and apart from the elements
on the way. This module says so for each reader. A reader that continues something begun
before it is told about that: `lo` is where the whole began and `els` are the elements so
far.

The readers call each other, always with less fuel. `Readers` lists the statements for
one amount of fuel, so that **one induction proves all of them together**.
-/

namespace ClassSort.Script

/-! ## Answers of readers -/

/-- From `ts`, behind `pos`, an expression is read that may have begun earlier. -/
def Reads (lo pos : Nat) (ts : Lexemes) (els : List Span) (e : Expr) (rest : Lexemes) : Prop :=
  ∃ els' stop, Passes pos ts els' stop rest ∧ ExprBlock lo stop e (els ++ els')

/-- From `ts`, behind `pos`, a member is read that may have begun earlier. -/
def ReadsMember (lo pos : Nat) (ts : Lexemes) (els : List Span) (m : Member) (rest : Lexemes) :
    Prop :=
  ∃ els' stop, Passes pos ts els' stop rest ∧ MemberBlock lo stop m (els ++ els')

/-- The construct that `ts` stand in is read to its end. Its contents end at `mid`. -/
def Closes (pos : Nat) (ts : Lexemes) (d : Delimiter) (els : List Span) (mid stop : Nat)
    (rest : Lexemes) : Prop :=
  ∃ c, Passes pos ts els mid (c :: rest) ∧ c.kind = .closing d ∧ c.span.stop = stop

theorem Within.mono {lo hi lo' hi' : Nat} {els : List Span} (h : Within lo hi els) (hlo : lo' ≤ lo)
    (hhi : hi ≤ hi') : Within lo' hi' els := by
  intro el hel
  have := h el hel
  omega

theorem Within.append {lo hi : Nat} {els els' : List Span} (h : Within lo hi els)
    (h' : Within lo hi els') : Within lo hi (els ++ els') := by
  intro el hel
  rcases List.mem_append.mp hel with hel | hel
  · exact h el hel
  · exact h' el hel

theorem within_nil (lo hi : Nat) : Within lo hi [] := by
  intro el hel
  exact absurd hel (by simp)

theorem skipComments_opening {o : Lexeme} {d : Delimiter} (ho : o.kind = .opening d)
    (ts : Lexemes) : skipComments (o :: ts) = o :: ts := by
  unfold skipComments
  rw [List.dropWhile_cons_of_neg]
  simp [ho]

/-- Behind a lexeme. -/
theorem Ordered.token {pos : Nat} {ts rest : Lexemes} {t : Lexeme} (h : Ordered pos ts)
    (hts : skipComments ts = t :: rest) :
    pos ≤ t.span.start ∧ t.span.start < t.span.stop ∧ Ordered t.span.stop rest := by
  obtain ⟨mid, hcomments⟩ := passes_skipComments pos ts
  rw [hts] at hcomments
  obtain ⟨hle, ⟨hstart, hforward, hrest⟩, -⟩ := hcomments.bounds h
  exact ⟨Nat.le_trans hle hstart, hforward, hrest⟩

section

variable {lo pos mid stop p : Nat} {ts ts' rest : Lexemes} {els els' : List Span} {e : Expr}
  {m : Member} {d : Delimiter}

/-- What has been passed before belongs to the expression. -/
theorem Reads.after (hpass : Passes pos ts els' p ts') (h : Reads lo p ts' (els ++ els') e rest) :
    Reads lo pos ts els e rest := by
  obtain ⟨els'', stop, hpass', hblock⟩ := h
  refine ⟨els' ++ els'', stop, hpass.trans hpass', ?_⟩
  rw [← List.append_assoc]
  exact hblock

theorem Reads.skip (hpass : Passes pos ts [] p ts') (h : Reads lo p ts' els e rest) :
    Reads lo pos ts els e rest := by
  refine Reads.after hpass ?_
  rw [List.append_nil]
  exact h

/-- A reader that stops at once. -/
theorem Reads.stay {e' : Expr} (h : ExprBlock lo pos e els)
    (heq : some (e, ts) = some (e', rest)) : Reads lo pos ts els e' rest := by
  obtain ⟨rfl, rfl⟩ := Prod.mk.inj (Option.some.inj heq)
  refine ⟨[], pos, .refl _ _, ?_⟩
  rw [List.append_nil]
  exact h

/-- An expression that is passed over together with what stands in front of it. -/
theorem Reads.other {start : Nat} (h : Reads p p ts' [] e rest) (hlo : lo ≤ start)
    (hstart : start < p) (hpass : Passes pos ts els' p ts') (hels : Within start p (els ++ els')) :
    Reads lo pos ts els (.other ⟨start, e.span.stop⟩) rest := by
  obtain ⟨els'', stop, hpass', hblock⟩ := h
  have hfirst := hblock.start
  have hforward := hblock.forward
  refine ⟨els' ++ els'', stop, hpass.trans hpass', ?_⟩
  rw [← List.append_assoc]
  refine .other hlo (by omega) hblock.stop ?_
  exact (hels.mono (Nat.le_refl _) (by omega)).append (hblock.covers.mono (by omega) (Nat.le_refl _))

/-- Something that is skipped, together with what stands in front of it. -/
theorem Reads.of_skips {start : Nat} (h : Skips pos ts stop rest) (hts : Ordered pos ts)
    (hlo : lo ≤ start) (hstart : start < pos) (hels : Within start pos els) :
    Reads lo pos ts els (.other ⟨start, stop⟩) rest := by
  obtain ⟨els', hpass⟩ := h
  obtain ⟨hle, -, hels'⟩ := hpass.bounds hts
  refine ⟨els', stop, hpass, .other hlo (by omega) (Nat.le_refl _) ?_⟩
  exact (hels.mono (Nat.le_refl _) hle).append
    (Within.mono hels' (Nat.le_of_lt hstart) (Nat.le_refl _))

/-- An operator in front of its operand. -/
theorem Reads.prefixed {t : Lexeme} {inside : Lexemes} (h : Reads t.span.stop t.span.stop inside [] e rest)
    (hts : Ordered pos ts) (htoken : skipComments ts = t :: inside) (ht : t.kind.nests = false) :
    Reads pos pos ts [] (.other ⟨t.span.start, e.span.stop⟩) rest := by
  obtain ⟨hstart, hforward, -⟩ := hts.token htoken
  exact h.other hstart hforward (passes_token htoken ht) (within_nil _ _)

theorem ReadsMember.after (hpass : Passes pos ts els' p ts')
    (h : ReadsMember lo p ts' (els ++ els') m rest) : ReadsMember lo pos ts els m rest := by
  obtain ⟨els'', stop, hpass', hblock⟩ := h
  refine ⟨els' ++ els'', stop, hpass.trans hpass', ?_⟩
  rw [← List.append_assoc]
  exact hblock

theorem Closes.after (hpass : Passes pos ts els p ts') (h : Closes p ts' d els' mid stop rest) :
    Closes pos ts d (els ++ els') mid stop rest := by
  obtain ⟨c, hpass', hc, hstop⟩ := h
  exact ⟨c, hpass.trans hpass', hc, hstop⟩

theorem Closes.of_token {s : Span} (pos : Nat)
    (h : skipComments ts = ⟨.closing d, s⟩ :: rest) :
    ∃ mid, Closes pos ts d [] mid s.stop rest := by
  obtain ⟨mid, hcomments⟩ := passes_skipComments pos ts
  rw [h] at hcomments
  exact ⟨mid, _, hcomments, rfl, rfl⟩

/-- A construct that is skipped. -/
theorem Closes.of_closeAll? (pos : Nat) (h : closeAll? [d] ts = some (stop, rest)) :
    ∃ els mid, Closes pos ts d els mid stop rest := by
  obtain ⟨els, mid, c, ts', hpass, hc, hcase⟩ := passes_closeAll? ts.length pos (Nat.le_refl _) h
  rcases hcase with ⟨-, rfl, rfl⟩ | hnone
  · exact ⟨els, mid, c, hpass, hc, rfl⟩
  · exact absurd hnone (by simp [closeAll?])

theorem Closes.bounds (h : Closes pos ts d els mid stop rest) (hts : Ordered pos ts) :
    pos ≤ mid ∧ mid < stop ∧ Ordered stop rest ∧ Within pos mid els := by
  obtain ⟨c, hpass, -, rfl⟩ := h
  obtain ⟨hle, ⟨hstart, hforward, hrest⟩, hels⟩ := hpass.bounds hts
  exact ⟨hle, by omega, hrest, hels⟩

/-- With its opening, a construct that is read to its end is passed over. -/
theorem Closes.group {o : Lexeme} (h : Closes o.span.stop ts d els mid stop rest)
    (ho : o.kind = .opening d) (hd : d ≠ .element) : Passes pos (o :: ts) els stop rest := by
  obtain ⟨c, hpass, hc, rfl⟩ := h
  have hgroup : Passes pos (o :: ts) (enclosed d o c els ++ []) c.span.stop rest :=
    .group ho hpass hc (.refl _ rest)
  rw [List.append_nil, enclosed, if_neg hd] at hgroup
  exact hgroup

/-- An element is kept as a whole. -/
theorem Closes.element {o : Lexeme} (h : Closes o.span.stop ts .element els mid stop rest)
    (ho : o.kind = .opening .element) :
    Passes pos (o :: ts) [⟨o.span.start, stop⟩] stop rest := by
  obtain ⟨c, hpass, hc, rfl⟩ := h
  exact .group ho hpass hc (.refl _ rest)

end

/-! ## Operators, functions and classes -/

section

variable {pos stop : Nat} {ts rest : Lexemes}

theorem passes_joinedPunct (text : String) (stop : Nat) (ts : Lexemes) :
    ∃ stop', Passes stop ts [] stop' (joinedPunct text stop ts).2 := by
  induction ts generalizing text stop with
  | nil => exact ⟨stop, .refl _ _⟩
  | cons t ts ih =>
      unfold joinedPunct
      split
      · rename_i p s ts' hts
        injection hts with ht hts
        subst ht hts
        split
        · split
          · obtain ⟨stop', hpass⟩ := ih (text ++ ">") s.stop
            exact ⟨stop', .skip rfl hpass⟩
          · split
            · exact ⟨s.stop, .single rfl⟩
            · exact ⟨stop, .refl _ _⟩
        · exact ⟨stop, .refl _ _⟩
      · exact ⟨stop, .refl _ _⟩

/-- An operator is a lexeme, and perhaps more that touch it. -/
theorem passes_operator? {op : String} (h : operator? ts = some (op, rest)) :
    ∃ t ts' stop, skipComments ts = t :: ts' ∧ t.kind.nests = false ∧
      Passes t.span.stop ts' [] stop rest := by
  unfold operator? at h
  split at h
  · rename_i s ts' hts
    obtain ⟨stop, hpass⟩ := passes_joinedPunct ">" s.stop ts'
    injection h with h
    rw [h] at hpass
    exact ⟨_, _, stop, hts, rfl, hpass⟩
  · rename_i hts
    injection h with h
    injection h with _ hrest
    subst hrest
    exact ⟨_, _, _, hts, rfl, .refl _ _⟩
  · rename_i hts
    split at h
    · injection h with h
      injection h with _ hrest
      subst hrest
      exact ⟨_, _, _, hts, rfl, .refl _ _⟩
    · exact absurd h (by simp)
  · exact absurd h (by simp)

theorem skips_returnType (d : Dialect) (fuel pos : Nat) (ts : Lexemes) :
    ∃ stop, Skips pos ts stop (skipReturnType d fuel ts) := by
  unfold skipReturnType
  split
  · split
    · rename_i hcolon
      cases htype : skipType? fuel _ with
      | none => exact ⟨pos, .refl _ _⟩
      | some found =>
          exact ⟨_, (skips_punct hcolon).trans ((skipsTypes fuel).type htype)⟩
    · exact ⟨pos, .refl _ _⟩
  · exact ⟨pos, .refl _ _⟩

theorem skips_optionalTypeParameters (d : Dialect) (pos : Nat) (ts : Lexemes) :
    ∃ stop, Skips pos ts stop (skipOptionalTypeParameters d ts) := by
  unfold skipOptionalTypeParameters
  split
  · split
    · rename_i inside hopen
      cases hparams : skipTypeParameters? inside.length 0 inside with
      | none => exact ⟨pos, .refl _ _⟩
      | some found => exact ⟨_, (skips_punct hopen).trans (skips_typeParameters _ hparams)⟩
    · exact ⟨pos, .refl _ _⟩
  · exact ⟨pos, .refl _ _⟩

theorem skips_function {d : Dialect} {fuel : Nat}
    (h : skipFunction? d fuel ts = some (stop, rest)) : Skips pos ts stop rest := by
  unfold skipFunction? at h
  obtain ⟨⟨mid, ts'⟩, hparams, hbody⟩ := Option.bind_eq_some_iff.mp h
  obtain ⟨first, htypes⟩ := skips_optionalTypeParameters d pos ts
  obtain ⟨last, hresult⟩ := skips_returnType d fuel mid ts'
  exact htypes.trans ((skips_skipGroup? hparams).trans (hresult.trans (skips_skipGroup? hbody)))

theorem skips_class (fuel : Nat) : ∀ {pos : Nat} {ts : Lexemes},
    skipClass? fuel ts = some (stop, rest) → Skips pos ts stop rest := by
  induction fuel with
  | zero =>
      intro pos ts h
      exact absurd h (by simp [skipClass?])
  | succ fuel ih =>
      intro pos ts h
      cases ts with
      | nil => exact absurd h (by simp [skipClass?])
      | cons t ts =>
          unfold skipClass? at h
          split at h
          · rename_i ht
            exact skips_closeAll? ht h
          · rename_i ht
            obtain ⟨⟨mid, ts'⟩, hclose, h⟩ := Option.bind_eq_some_iff.mp h
            exact (skips_closeAll? ht hclose).trans (ih h)
          · exact absurd h (by simp)
          · exact absurd h (by simp)
          · rename_i hopen hclose _
            exact Skips.trans ⟨[], .single (Kind.not_nests hopen hclose)⟩ (ih h)

/-- A function with parameters in parentheses: first these, then what leads up to its
body. -/
theorem arrow_cases {d : Dialect} {fuel : Nat} (h : skipArrow? d fuel ts = some rest) :
    ∃ o inside mid ts', skipComments ts = o :: inside ∧ o.kind = .opening .paren ∧
      closeAll? [.paren] inside = some (mid, ts') ∧ ∀ pos, ∃ stop, Skips pos ts' stop rest := by
  unfold skipArrow? at h
  obtain ⟨ts', hparams, h⟩ := Option.bind_eq_some_iff.mp h
  have hlast : ∀ pos, ∃ stop, Skips pos ts' stop rest := by
    intro pos
    split at h
    · rename_i harrow
      injection h with h
      subst h
      exact ⟨_, skips_punct harrow⟩
    · rename_i harrow
      injection h with h
      subst h
      obtain ⟨last, hresult⟩ := skips_returnType d fuel pos ts'
      exact ⟨_, hresult.trans (skips_punct harrow)⟩
    · -- the result has a type in parentheses
      obtain ⟨⟨stop, rest'⟩, harrow, rfl⟩ := Option.map_eq_some_iff.mp h
      obtain ⟨ts'', htype, harrow⟩ := Option.bind_eq_some_iff.mp harrow
      unfold skipParenType? at htype
      split at htype
      · obtain ⟨⟨colon, inside⟩, hcolon, htype⟩ := Option.bind_eq_some_iff.mp htype
        obtain ⟨⟨last, behind⟩, hgroup, rfl⟩ := Option.map_eq_some_iff.mp htype
        exact ⟨_, (skips_punct hcolon).trans
          ((skips_skipGroup? hgroup).trans (skips_punct harrow))⟩
      · exact absurd htype (by simp)
  unfold skipParameters? at hparams
  split at hparams
  · rename_i hopen
    split at hparams
    · obtain ⟨⟨mid, ts''⟩, hclose, rfl⟩ := Option.map_eq_some_iff.mp hparams
      exact ⟨_, _, mid, ts'', hopen, rfl, hclose, hlast⟩
    · exact absurd hparams (by simp)
  · exact absurd hparams (by simp)

theorem skips_arrow {d : Dialect} {fuel : Nat} (pos : Nat) (h : skipArrow? d fuel ts = some rest) :
    ∃ stop, Skips pos ts stop rest := by
  obtain ⟨o, inside, mid, ts', hopen, ho, hclose, hlast⟩ := arrow_cases h
  obtain ⟨stop, hskips⟩ := hlast mid
  exact ⟨stop, (skips_group hopen ho hclose).trans hskips⟩

end

/-! ## The statements -/

/-- The items of a construct are read to its end. -/
def ReadsItems (lo pos : Nat) (ts : Lexemes) (d : Delimiter) (els : List Span) (items : List Expr)
    (stop : Nat) (rest : Lexemes) : Prop :=
  ∃ els' mid, Closes pos ts d els' mid stop rest ∧
    (∀ source shape, Block lo mid (listUnits source shape items) (els ++ els')) ∧
    FormedRow lo mid items

/-- The holes of a template are read to its end. The text in front of the first one
begins at `start`, and `lo` is before it. -/
def ReadsHoles (pos : Nat) (ts : Lexemes) (holes : List (Span × Expr)) (stop : Nat)
    (rest : Lexemes) : Prop :=
  ∃ els mid, Closes pos ts .template els mid stop rest ∧
    (∀ source shape start after lo, start ≤ pos → lo < start →
      Block lo stop (holeUnits source shape start (stop - 1) after holes) els) ∧
    FormedHoles pos (stop - 1) holes

/-- The members of an object are read to its end. -/
def ReadsMembers (lo pos : Nat) (ts : Lexemes) (els : List Span) (ms : List Member) (stop : Nat)
    (rest : Lexemes) : Prop :=
  ∃ els' mid, Closes pos ts .brace els' mid stop rest ∧ MemberRow lo mid ms (els ++ els')

/-- A key between two offsets. A computed key may hold elements; any other is a single
lexeme. -/
structure KeyBlock (lo hi : Nat) (k : Key) (els : List Span) : Prop where
  start : lo ≤ k.span.start
  forward : k.span.start < k.span.stop
  stop : k.span.stop ≤ hi
  covers : Within k.span.start k.span.stop els
  single : els = [] ∨ ∃ s, k = .other s

/-- What the readers do with some fuel. -/
structure Readers (d : Dialect) (fuel : Nat) : Prop where
  expr : ∀ {pos : Nat} {ts rest : Lexemes} {e : Expr},
    readExpr d fuel ts = some (e, rest) → Ordered pos ts → Reads pos pos ts [] e rest
  sequence : ∀ {pos : Nat} {ts rest : Lexemes} {e : Expr},
    readSequence d fuel ts = some (e, rest) → Ordered pos ts → Reads pos pos ts [] e rest
  binary : ∀ {pos least : Nat} {ts rest : Lexemes} {e : Expr},
    readBinary d fuel least ts = some (e, rest) → Ordered pos ts → Reads pos pos ts [] e rest
  operators : ∀ {lo pos least : Nat} {ts rest : Lexemes} {left e : Expr} {els : List Span},
    readOperators d fuel least left ts = some (e, rest) → Ordered pos ts →
    ExprBlock lo pos left els → Reads lo pos ts els e rest
  unary : ∀ {pos : Nat} {ts rest : Lexemes} {e : Expr},
    readUnary d fuel ts = some (e, rest) → Ordered pos ts → Reads pos pos ts [] e rest
  suffixed : ∀ {pos : Nat} {ts rest : Lexemes} {e : Expr},
    readPostfix d fuel ts = some (e, rest) → Ordered pos ts → Reads pos pos ts [] e rest
  suffixes : ∀ {lo pos : Nat} {ts rest : Lexemes} {e e' : Expr} {els : List Span},
    readSuffixes d fuel e ts = some (e', rest) → Ordered pos ts → ExprBlock lo pos e els →
    Reads lo pos ts els e' rest
  index : ∀ {lo pos : Nat} {o : Lexeme} {ts rest : Lexemes} {e e' : Expr} {els : List Span},
    readIndex d fuel e ts = some (e', rest) → Ordered pos (o :: ts) →
    o.kind = .opening .bracket → ExprBlock lo pos e els → Reads lo pos (o :: ts) els e' rest
  items : ∀ {pos stop : Nat} {delimiter : Delimiter} {ts rest : Lexemes} {items : List Expr},
    readItems d fuel delimiter ts = some (items, stop, rest) → Ordered pos ts →
    ReadsItems pos pos ts delimiter [] items stop rest
  moreItems : ∀ {lo pos stop : Nat} {delimiter : Delimiter} {ts rest : Lexemes} {first : Expr}
    {items : List Expr} {els : List Span},
    readMoreItems d fuel delimiter first ts = some (items, stop, rest) → Ordered pos ts →
    ExprBlock lo pos first els → ReadsItems lo pos ts delimiter els items stop rest
  holes : ∀ {pos stop : Nat} {ts rest : Lexemes} {holes : List (Span × Expr)},
    readHoles d fuel ts = some (holes, stop, rest) → Ordered pos ts →
    ReadsHoles pos ts holes stop rest
  arrowBody : ∀ {lo start pos : Nat} {ts rest : Lexemes} {e : Expr} {els : List Span},
    readArrowBody d fuel start ts = some (e, rest) → Ordered pos ts → lo ≤ start → start < pos →
    Within start pos els → Reads lo pos ts els e rest
  wordOperand : ∀ {lo pos : Nat} {w : String} {s : Span} {ts rest : Lexemes} {e : Expr},
    readWordOperand d fuel w s ts = some (e, rest) → Ordered pos ts → lo ≤ s.start →
    s.start < s.stop → s.stop ≤ pos → Reads lo pos ts [] e rest
  construct : ∀ {lo start pos : Nat} {ts rest : Lexemes} {e : Expr},
    readNew d fuel start ts = some (e, rest) → Ordered pos ts → lo ≤ start → start < pos →
    Reads lo pos ts [] e rest
  constructSuffixes : ∀ {lo start stop pos : Nat} {ts rest : Lexemes} {e : Expr}
    {els : List Span}, readNewSuffixes d fuel start stop ts = some (e, rest) → Ordered pos ts →
    lo ≤ start → start < stop → stop ≤ pos → Within start stop els → Reads lo pos ts els e rest
  primary : ∀ {pos : Nat} {ts rest : Lexemes} {e : Expr},
    readPrimary d fuel ts = some (e, rest) → Ordered pos ts → Reads pos pos ts [] e rest
  members : ∀ {pos stop : Nat} {ts rest : Lexemes} {ms : List Member},
    readMembers d fuel ts = some (ms, stop, rest) → Ordered pos ts →
    ReadsMembers pos pos ts [] ms stop rest
  moreMembers : ∀ {lo pos stop : Nat} {ts rest : Lexemes} {first : Member} {ms : List Member}
    {els : List Span}, readMoreMembers d fuel first ts = some (ms, stop, rest) → Ordered pos ts →
    MemberBlock lo pos first els → ReadsMembers lo pos ts els ms stop rest
  member : ∀ {pos : Nat} {ts rest : Lexemes} {m : Member},
    readMember d fuel ts = some (m, rest) → Ordered pos ts → ReadsMember pos pos ts [] m rest
  key : ∀ {pos : Nat} {ts rest : Lexemes} {k : Key},
    readKey d fuel ts = some (k, rest) → Ordered pos ts →
    ∃ els stop, Passes pos ts els stop rest ∧ KeyBlock pos stop k els
  keyed : ∀ {lo pos : Nat} {ts rest : Lexemes} {k : Key} {m : Member} {els : List Span},
    readKeyed d fuel k ts = some (m, rest) → Ordered pos ts → KeyBlock lo pos k els →
    ReadsMember lo pos ts els m rest
  method : ∀ {lo start pos : Nat} {ts rest : Lexemes} {m : Member} {els : List Span},
    readMethod d fuel start ts = some (m, rest) → Ordered pos ts → lo ≤ start → start < pos →
    Within start pos els → ReadsMember lo pos ts els m rest

end ClassSort.Script
