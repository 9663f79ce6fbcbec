import ClassSort.Proofs.ReaderSpecs

/-!
# Reading operators and operands

For each reader of operators, operands and what stands behind them: if all readers keep
their promise with some fuel, this one keeps it with a little more.
-/

namespace ClassSort.Script

/-! ## Operators and operands -/

section

variable {d : Dialect} {fuel : Nat} (ih : Readers d fuel) {lo pos : Nat} {ts rest : Lexemes}
  {e : Expr} {els : List Span}

include ih

theorem reads_expr (h : readExpr d (fuel + 1) ts = some (e, rest)) (hts : Ordered pos ts) :
    Reads pos pos ts [] e rest := by
  unfold readExpr at h
  obtain ⟨⟨left, ts₁⟩, hleft, h⟩ := Option.bind_eq_some_iff.mp h
  dsimp only at h
  split at h
  · injection h with h
    injection h with he hrest
    subst he hrest
    exact ih.binary hleft hts
  · rename_i q ts₂ hquestion
    obtain ⟨⟨c, ts₃⟩, hconsequence, h⟩ := Option.bind_eq_some_iff.mp h
    obtain ⟨⟨q', ts₄⟩, hcolon, h⟩ := Option.bind_eq_some_iff.mp h
    obtain ⟨⟨a, ts₅⟩, halternative, h⟩ := Option.bind_eq_some_iff.mp h
    injection h with h
    injection h with he hrest
    subst he hrest
    obtain ⟨els₁, p₁, hpass₁, hblock₁⟩ := ih.binary hleft hts
    have hpass₂ : Passes p₁ ts₁ [] q ts₂ := passes_skipPunct? hquestion
    obtain ⟨-, hts₁, -⟩ := hpass₁.bounds hts
    obtain ⟨hq, hts₂, -⟩ := hpass₂.bounds hts₁
    obtain ⟨els₃, p₃, hpass₃, hblock₃⟩ := ih.expr hconsequence hts₂
    have hpass₄ : Passes p₃ ts₃ [] q' ts₄ := passes_skipPunct? hcolon
    obtain ⟨-, hts₃, -⟩ := hpass₃.bounds hts₂
    obtain ⟨hq', hts₄, -⟩ := hpass₄.bounds hts₃
    obtain ⟨els₅, p₅, hpass₅, hblock₅⟩ := ih.expr halternative hts₄
    refine ⟨els₁ ++ (els₃ ++ els₅), p₅,
      hpass₁.trans (hpass₂.trans (hpass₃.trans (hpass₄.trans hpass₅))), ?_⟩
    exact hblock₁.ternary hblock₃ hblock₅ hq hq'

theorem reads_sequence (h : readSequence d (fuel + 1) ts = some (e, rest)) (hts : Ordered pos ts) :
    Reads pos pos ts [] e rest := by
  unfold readSequence at h
  obtain ⟨⟨first, ts₁⟩, hfirst, h⟩ := Option.bind_eq_some_iff.mp h
  dsimp only at h
  split at h
  · injection h with h
    injection h with he hrest
    subst he hrest
    exact ih.expr hfirst hts
  · rename_i q ts₂ hcomma
    obtain ⟨⟨more, ts₃⟩, hmore, h⟩ := Option.bind_eq_some_iff.mp h
    injection h with h
    injection h with he hrest
    subst he hrest
    obtain ⟨els₁, p₁, hpass₁, hblock₁⟩ := ih.expr hfirst hts
    have hpass₂ : Passes p₁ ts₁ [] q ts₂ := passes_skipPunct? hcomma
    obtain ⟨-, hts₁, -⟩ := hpass₁.bounds hts
    obtain ⟨hq, hts₂, -⟩ := hpass₂.bounds hts₁
    obtain ⟨els₃, p₃, hpass₃, hblock₃⟩ := ih.sequence hmore hts₂
    refine ⟨els₁ ++ els₃, p₃, hpass₁.trans (hpass₂.trans hpass₃), ?_⟩
    have hboth := hblock₁.binary hblock₃ hq .other
    exact .other hboth.start hboth.forward hboth.stop hboth.covers

theorem reads_binary {least : Nat} (h : readBinary d (fuel + 1) least ts = some (e, rest))
    (hts : Ordered pos ts) : Reads pos pos ts [] e rest := by
  unfold readBinary at h
  obtain ⟨⟨left, ts₁⟩, hleft, h⟩ := Option.bind_eq_some_iff.mp h
  obtain ⟨els₁, p₁, hpass₁, hblock₁⟩ := ih.unary hleft hts
  obtain ⟨-, hts₁, -⟩ := hpass₁.bounds hts
  exact Reads.after hpass₁ (ih.operators h hts₁ hblock₁)

theorem reads_operators {least : Nat} {left : Expr}
    (h : readOperators d (fuel + 1) least left ts = some (e, rest)) (hts : Ordered pos ts)
    (hleft : ExprBlock lo pos left els) : Reads lo pos ts els e rest := by
  unfold readOperators at h
  split at h
  · rename_i op ts₁ hop
    split at h
    · split at h
      · exact .stay hleft h
      · obtain ⟨⟨right, ts₂⟩, hright, h⟩ := Option.bind_eq_some_iff.mp h
        obtain ⟨t, ts', q, hcomments, ht, hpass'⟩ := passes_operator? hop
        have hpass : Passes pos ts [] q ts₁ := (passes_token hcomments ht).trans hpass'
        obtain ⟨hq, hts₁, -⟩ := hpass.bounds hts
        obtain ⟨els₂, p₂, hpass₂, hblock₂⟩ := ih.binary hright hts₁
        obtain ⟨-, hts₂, -⟩ := hpass₂.bounds hts₁
        exact .skip hpass (.after hpass₂ (ih.operators h hts₂ (hleft.binary hblock₂ hq _)))
    · exact .stay hleft h
  · -- `as` or `satisfies`, and a type
    split at h
    · rename_i w s ts₁ hword
      split at h
      · obtain ⟨⟨q, ts₂⟩, htype, h⟩ := Option.bind_eq_some_iff.mp h
        obtain ⟨hstart, hforward, hts₁⟩ := hts.token hword
        have hskips : Skips s.stop ts₁ q ts₂ := (skipsTypes fuel).type htype
        obtain ⟨els₂, hpass₂⟩ := hskips
        obtain ⟨hq, hts₂, hels₂⟩ := hpass₂.bounds hts₁
        dsimp only at hstart hforward hts₁
        have hpass : Passes pos ts els₂ q ts₂ := (passes_token hword rfl).trans hpass₂
        have hwrapped := hleft.wrapped (by omega) (Nat.le_refl q)
          (Within.mono hels₂ (by omega) (Nat.le_refl q))
        exact .after hpass (ih.operators h hts₂ hwrapped)
      · exact .stay hleft h
    · exact .stay hleft h

theorem reads_unary (h : readUnary d (fuel + 1) ts = some (e, rest)) (hts : Ordered pos ts) :
    Reads pos pos ts [] e rest := by
  unfold readUnary at h
  split at h
  · rename_i p s inside htoken
    obtain ⟨hstart, hforward, hinside⟩ := hts.token htoken
    split at h
    · obtain ⟨⟨operand, ts₁⟩, hoperand, h⟩ := Option.bind_eq_some_iff.mp h
      obtain ⟨rfl, rfl⟩ := Prod.mk.inj (Option.some.inj h)
      exact (ih.unary hoperand hinside).prefixed hts htoken rfl
    · exact ih.suffixed h hts
  · rename_i w s inside htoken
    obtain ⟨hstart, hforward, hinside⟩ := hts.token htoken
    split at h
    · obtain ⟨⟨operand, ts₁⟩, hoperand, h⟩ := Option.bind_eq_some_iff.mp h
      obtain ⟨rfl, rfl⟩ := Prod.mk.inj (Option.some.inj h)
      exact (ih.unary hoperand hinside).prefixed hts htoken rfl
    · split at h
      · -- a star may follow `yield`
        obtain ⟨p, hstar⟩ := passes_optionalPunct "*" s.stop inside
        obtain ⟨hp, hinside', -⟩ := hstar.bounds hinside
        have hpass : Passes pos ts [] p _ := (passes_token htoken rfl).trans hstar
        dsimp only at h
        split at h
        · obtain ⟨⟨value, ts₁⟩, hvalue, h⟩ := Option.bind_eq_some_iff.mp h
          obtain ⟨rfl, rfl⟩ := Prod.mk.inj (Option.some.inj h)
          refine (ih.expr hvalue hinside').other hstart ?_ hpass (within_nil _ _)
          exact Nat.lt_of_lt_of_le hforward hp
        · obtain ⟨rfl, rfl⟩ := Prod.mk.inj (Option.some.inj h)
          exact ⟨[], p, hpass, .other hstart hforward hp (within_nil _ _)⟩
      · exact ih.suffixed h hts
  · exact ih.suffixed h hts

theorem reads_suffixed (h : readPostfix d (fuel + 1) ts = some (e, rest)) (hts : Ordered pos ts) :
    Reads pos pos ts [] e rest := by
  unfold readPostfix at h
  obtain ⟨⟨first, ts₁⟩, hprimary, h⟩ := Option.bind_eq_some_iff.mp h
  obtain ⟨⟨e₂, ts₂⟩, hsuffixes, h⟩ := Option.bind_eq_some_iff.mp h
  obtain ⟨els₁, p₁, hpass₁, hblock₁⟩ := ih.primary hprimary hts
  obtain ⟨-, hts₁, -⟩ := hpass₁.bounds hts
  have hreads : Reads pos pos ts [] e₂ ts₂ := .after hpass₁ (ih.suffixes hsuffixes hts₁ hblock₁)
  dsimp only at h
  split at h
  · rename_i op ts₃ hop
    obtain ⟨els₂, p₂, hpass₂, hblock₂⟩ := hreads
    obtain ⟨-, hts₂, -⟩ := hpass₂.bounds hts
    obtain ⟨t, ts', q, htoken, ht, hpass'⟩ := passes_operator? hop
    obtain ⟨htstart, htforward, hts'⟩ := hts₂.token htoken
    obtain ⟨hq, hts₃, -⟩ := hpass'.bounds hts'
    have hpass₃ : Passes pos ts els₂ q ts₃ :=
      (hpass₂.trans_skip (passes_token htoken ht)).trans_skip hpass'
    have hstop := hblock₂.stop
    have hforward := hblock₂.forward
    split at h
    · obtain ⟨rfl, rfl⟩ := Prod.mk.inj (Option.some.inj h)
      rw [htoken]
      refine ⟨els₂, q, hpass₃, .other hblock₂.start ?_ hq ?_⟩
      · show e₂.span.start < t.span.stop
        omega
      · exact hblock₂.covers.mono (Nat.le_refl _) (by show e₂.span.stop ≤ t.span.stop; omega)
    · split at h
      · obtain ⟨⟨value, ts₄⟩, hvalue, h⟩ := Option.bind_eq_some_iff.mp h
        obtain ⟨rfl, rfl⟩ := Prod.mk.inj (Option.some.inj h)
        refine (ih.expr hvalue hts₃).other hblock₂.start (by omega) hpass₃ ?_
        exact hblock₂.covers.mono (Nat.le_refl _) (by omega)
      · obtain ⟨rfl, rfl⟩ := Prod.mk.inj (Option.some.inj h)
        exact ⟨els₂, p₂, hpass₂, hblock₂⟩
  · obtain ⟨rfl, rfl⟩ := Prod.mk.inj (Option.some.inj h)
    exact hreads

/-! ## What stands behind an operand

`front` are the elements from the operand up to the opening; they need not be in the
operand, because type arguments may stand in between. -/

/-- A call with what follows it. -/
theorem reads_call {o : Lexeme} {e' : Expr} {args : List Expr} {stop : Nat} {ts' : Lexemes}
    {front : List Span} (hts : Ordered pos (o :: ts)) (ho : o.kind = .opening .paren)
    (hstart : lo ≤ e.span.start) (hpos : e.span.start < pos) (he : e.WellFormed)
    (hestop : e.span.stop ≤ pos) (hfront : Within e.span.start pos front)
    (hitems : readItems d fuel .paren ts = some (args, stop, ts'))
    (h : readSuffixes d fuel (.call ⟨e.span.start, stop⟩ e args) ts' = some (e', rest)) :
    Reads lo pos (o :: ts) front e' rest := by
  obtain ⟨hostart, hoforward, hinside⟩ := hts
  obtain ⟨els', mid, hcloses, hargs, hformed⟩ := ih.items hitems hinside
  obtain ⟨hmid, hstop, hts', -⟩ := hcloses.bounds hinside
  have hcall : ExprBlock lo stop (.call ⟨e.span.start, stop⟩ e args) (front ++ els') :=
    .call hstart (by omega) he (by omega) (hfront.mono (Nat.le_refl _) (by omega)) hargs hformed
      hmid (by omega)
  exact .after (hcloses.group ho (by decide)) (ih.suffixes h hts' hcall)

/-- A template behind its tag. -/
theorem reads_tagged {o : Lexeme} {e' : Expr} {holes : List (Span × Expr)} {stop : Nat}
    {ts' : Lexemes} {front : List Span} (hts : Ordered pos (o :: ts))
    (ho : o.kind = .opening .template) (hstart : lo ≤ e.span.start) (hpos : e.span.start < pos)
    (hfront : Within e.span.start pos front)
    (hholes : readHoles d fuel ts = some (holes, stop, ts'))
    (h : readSuffixes d fuel (.other ⟨min e.span.start o.span.start, stop⟩) ts' =
      some (e', rest)) : Reads lo pos (o :: ts) front e' rest := by
  obtain ⟨hostart, hoforward, hinside⟩ := hts
  obtain ⟨els', mid, hcloses, -⟩ := ih.holes hholes hinside
  obtain ⟨hmid, hstop, hts', hels'⟩ := hcloses.bounds hinside
  have hmin : min e.span.start o.span.start = e.span.start := Nat.min_eq_left (by omega)
  rw [hmin] at h
  have htagged : ExprBlock lo stop (.other ⟨e.span.start, stop⟩) (front ++ els') := by
    refine .other hstart (by omega) (Nat.le_refl _) (Within.append ?_ ?_)
    · exact hfront.mono (Nat.le_refl _) (by omega)
    · exact hels'.mono (by omega) (by omega)
  exact .after (hcloses.group ho (by decide)) (ih.suffixes h hts' htagged)

theorem reads_index {o : Lexeme} {e' : Expr} (h : readIndex d (fuel + 1) e ts = some (e', rest))
    (hts : Ordered pos (o :: ts)) (ho : o.kind = .opening .bracket) (he : ExprBlock lo pos e els) :
    Reads lo pos (o :: ts) els e' rest := by
  obtain ⟨hostart, hoforward, hinside⟩ := hts
  unfold readIndex at h
  obtain ⟨⟨index, ts₁⟩, hindex, h⟩ := Option.bind_eq_some_iff.mp h
  obtain ⟨els₁, p₁, hpass₁, hblock₁⟩ := ih.sequence hindex hinside
  obtain ⟨-, hts₁, -⟩ := hpass₁.bounds hinside
  dsimp only at h
  split at h
  · rename_i s ts₂ hclose
    obtain ⟨hcstart, hcforward, hts₂⟩ := hts₁.token hclose
    have hpass : Passes pos (o :: ts) els₁ s.stop ts₂ :=
      passes_group (by decide) (skipComments_opening ho ts) ho hpass₁ hclose rfl
    have hsubscript := (he.mono (Nat.le_refl lo) hostart).subscript
      (hblock₁.mono (Nat.le_of_lt hoforward) (Nat.le_refl p₁)) (Nat.le_refl _)
      (Nat.le_trans hcstart (Nat.le_of_lt hcforward))
    exact .after hpass (ih.suffixes h hts₂ hsubscript)
  · exact absurd h (by simp)

/-- The name of a member. -/
theorem reads_property {e' : Expr} {t : Lexeme} {ts' : Lexemes}
    (h : readSuffixes d fuel (.other ⟨e.span.start, t.span.stop⟩) ts' = some (e', rest))
    (hts : Ordered pos ts) (htoken : skipComments ts = t :: ts') (ht : t.kind.nests = false)
    (he : ExprBlock lo pos e els) : Reads lo pos ts els e' rest := by
  obtain ⟨hstart, hforward, hts'⟩ := hts.token htoken
  have hstop := he.stop
  have heforward := he.forward
  have hother : ExprBlock lo t.span.stop (.other ⟨e.span.start, t.span.stop⟩) els :=
    .other he.start (by omega) (Nat.le_refl _) (he.covers.mono (Nat.le_refl _) (by omega))
  exact .skip (passes_token htoken ht) (ih.suffixes h hts' hother)

end

/-- Behind the comments in front of a lexeme. -/
theorem exists_behind_comments {lo pos : Nat} {ts inside : Lexemes} {t : Lexeme} {e : Expr}
    {els : List Span} (hts : Ordered pos ts) (htoken : skipComments ts = t :: inside)
    (he : ExprBlock lo pos e els) :
    ∃ p, Passes pos ts [] p (t :: inside) ∧ Ordered p (t :: inside) ∧ ExprBlock lo p e els := by
  obtain ⟨p, hpass⟩ := passes_skipComments pos ts
  rw [htoken] at hpass
  obtain ⟨hp, hordered, -⟩ := hpass.bounds hts
  exact ⟨p, hpass, hordered, he.mono (Nat.le_refl _) hp⟩

/-- Type arguments behind an expression. -/
theorem passes_typeArguments {d : Dialect} {fuel lo pos stop : Nat} {ts inside ts' : Lexemes}
    {s : Span} {e : Expr} {els : List Span} (hts : Ordered pos ts)
    (hless : skipComments ts = ⟨.punct "<", s⟩ :: inside) (he : ExprBlock lo pos e els)
    (h : (if d = .typeScript then skipTypeList? fuel inside else none) = some (stop, ts')) :
    ∃ els', Passes pos ts els' stop ts' ∧ Ordered stop ts' ∧ e.span.start < stop ∧
      e.span.stop ≤ stop ∧ Within e.span.start stop (els ++ els') := by
  split at h
  · have hskips : Skips s.stop inside stop ts' := (skipsTypes fuel).list h
    obtain ⟨els', hpass⟩ := hskips
    have hpass' : Passes pos ts els' stop ts' := (passes_token hless rfl).trans hpass
    obtain ⟨hle, hordered, hels'⟩ := hpass'.bounds hts
    obtain ⟨hpos, hels⟩ := he.before
    exact ⟨els', hpass', hordered, Nat.lt_of_lt_of_le hpos hle, Nat.le_trans he.stop hle,
      (hels.mono (Nat.le_refl _) hle).append
        (Within.mono hels' (Nat.le_of_lt hpos) (Nat.le_refl _))⟩
  · exact absurd h (by simp)

theorem reads_suffixes {d : Dialect} {fuel : Nat} (ih : ∀ n, n ≤ fuel → Readers d n) {lo pos : Nat}
    {ts rest : Lexemes} {e e' : Expr} {els : List Span}
    (h : readSuffixes d (fuel + 1) e ts = some (e', rest)) (hts : Ordered pos ts)
    (he : ExprBlock lo pos e els) : Reads lo pos ts els e' rest := by
  have ihere := ih fuel (Nat.le_refl _)
  unfold readSuffixes at h
  split at h
  · -- a property
    rename_i s inside hdot
    split at h
    · rename_i s' inside' hname
      obtain ⟨hstart, hforward, hordered⟩ := hts.token hdot
      have hbefore := he.mono (Nat.le_refl lo) (Nat.le_trans hstart (Nat.le_of_lt hforward))
      exact .skip (passes_token hdot rfl) (reads_property ihere h hordered hname rfl hbefore)
    · exact absurd h (by simp)
  · -- the same, a call or an index behind `?.`
    rename_i s inside hdot
    obtain ⟨hstart, hforward, hordered⟩ := hts.token hdot
    have hbefore := he.mono (Nat.le_refl lo) (Nat.le_trans hstart (Nat.le_of_lt hforward))
    refine .skip (passes_token hdot rfl) ?_
    split at h
    · rename_i hname
      exact reads_property ihere h hordered hname rfl hbefore
    · rename_i hopen
      obtain ⟨⟨args, stop, ts'⟩, hitems, h⟩ := Option.bind_eq_some_iff.mp h
      obtain ⟨p, hpass, hordered', hp⟩ := exists_behind_comments hordered hopen hbefore
      exact .skip hpass (reads_call ihere hordered' rfl hp.start hp.before.1 hp.formed hp.stop
        hp.before.2 hitems h)
    · rename_i hopen
      obtain ⟨p, hpass, hordered', hp⟩ := exists_behind_comments hordered hopen hbefore
      exact .skip hpass (ihere.index h hordered' rfl hp)
    · exact absurd h (by simp)
  · rename_i hopen
    obtain ⟨⟨args, stop, ts'⟩, hitems, h⟩ := Option.bind_eq_some_iff.mp h
    obtain ⟨p, hpass, hordered, hp⟩ := exists_behind_comments hts hopen he
    exact .skip hpass (reads_call ihere hordered rfl hp.start hp.before.1 hp.formed hp.stop
      hp.before.2 hitems h)
  · rename_i hopen
    obtain ⟨p, hpass, hordered, hp⟩ := exists_behind_comments hts hopen he
    exact .skip hpass (ihere.index h hordered rfl hp)
  · -- a template with a tag
    rename_i hopen
    obtain ⟨⟨holes, stop, ts'⟩, hholes, h⟩ := Option.bind_eq_some_iff.mp h
    obtain ⟨p, hpass, hordered, hp⟩ := exists_behind_comments hts hopen he
    exact .skip hpass (reads_tagged ihere hordered rfl hp.start hp.before.1 hp.before.2
      hholes h)
  · -- a mark that says that there is a value
    rename_i s inside hmark
    split at h
    · obtain ⟨hstart, hforward, hordered⟩ := hts.token hmark
      have hwrapped := he.wrapped (Nat.le_trans hstart (Nat.le_of_lt hforward)) (Nat.le_refl _)
        (within_nil _ _)
      rw [List.append_nil] at hwrapped
      exact .skip (passes_token hmark rfl) (ihere.suffixes h hordered hwrapped)
    · exact .stay he h
  · rename_i s inside hless
    -- behind type arguments there must be a call or a template, which is read right away
    split at h
    · rename_i stop s' inside' htypes
      obtain ⟨els', hpass, hordered', hpos, hestop, hels⟩ :=
        passes_typeArguments hts hless he htypes
      cases fuel with
      | zero => exact absurd h (by simp [readSuffixes])
      | succ n =>
          unfold readSuffixes at h
          obtain ⟨⟨args, stop', ts'⟩, hitems, h⟩ := Option.bind_eq_some_iff.mp h
          exact .after hpass
            (reads_call (ih n (by omega)) hordered' rfl he.start hpos he.formed hestop hels hitems
              h)
    · rename_i stop s' inside' htypes
      obtain ⟨els', hpass, hordered', hpos, hestop, hels⟩ :=
        passes_typeArguments hts hless he htypes
      cases fuel with
      | zero => exact absurd h (by simp [readSuffixes])
      | succ n =>
          unfold readSuffixes at h
          obtain ⟨⟨holes, stop', ts'⟩, hholes, h⟩ := Option.bind_eq_some_iff.mp h
          exact .after hpass
            (reads_tagged (ih n (by omega)) hordered' rfl he.start hpos hels hholes h)
    · exact .stay he h
  · exact .stay he h

/-! ## Items and holes -/

section

variable {d : Dialect} {fuel : Nat} (ih : Readers d fuel) {lo pos stop : Nat} {ts rest : Lexemes}
  {e : Expr} {els : List Span}

/-- What has been passed before belongs to the items. -/
theorem ReadsItems.after {delimiter : Delimiter} {items : List Expr} {p : Nat} {ts' : Lexemes}
    {els' : List Span} (hpass : Passes pos ts els' p ts')
    (h : ReadsItems lo p ts' delimiter (els ++ els') items stop rest) :
    ReadsItems lo pos ts delimiter els items stop rest := by
  obtain ⟨els'', mid, hcloses, hitems, hformed⟩ := h
  refine ⟨els' ++ els'', mid, hcloses.after hpass, ?_, hformed⟩
  rw [← List.append_assoc]
  exact hitems

include ih

theorem reads_items {delimiter : Delimiter} {items : List Expr}
    (h : readItems d (fuel + 1) delimiter ts = some (items, stop, rest)) (hts : Ordered pos ts) :
    ReadsItems pos pos ts delimiter [] items stop rest := by
  unfold readItems at h
  split at h
  · rename_i e s inside hclose
    split at h
    · rename_i he
      subst he
      simp only [Option.some.injEq, Prod.mk.injEq] at h
      obtain ⟨rfl, rfl, rfl⟩ := h
      obtain ⟨mid, hcloses⟩ := Closes.of_token pos hclose
      obtain ⟨hmid, -, -, -⟩ := hcloses.bounds hts
      refine ⟨[], mid, hcloses, fun source shape => ?_, hmid, by simp⟩
      rw [listUnits]
      exact .nil _ _
    · exact absurd h (by simp)
  · rename_i hcomma
    obtain ⟨hstart, hforward, hinside⟩ := hts.token hcomma
    obtain ⟨els', mid, hcloses, hitems, hformed⟩ := ih.items h hinside
    have hle := Nat.le_trans hstart (Nat.le_of_lt hforward)
    refine ⟨els', mid, hcloses.after (passes_token hcomma rfl), fun source shape => ?_,
      hformed.mono hle (Nat.le_refl _)⟩
    exact (hitems source shape).mono hle (Nat.le_refl _)
  · rename_i s inside hspread
    obtain ⟨⟨item, ts₁⟩, hitem, h⟩ := Option.bind_eq_some_iff.mp h
    obtain ⟨hstart, hforward, hinside⟩ := hts.token hspread
    obtain ⟨els₁, p₁, hpass₁, hblock₁⟩ := (ih.expr hitem hinside).prefixed hts hspread rfl
    obtain ⟨-, hts₁, -⟩ := hpass₁.bounds hts
    exact .after hpass₁ (ih.moreItems h hts₁ hblock₁)
  · obtain ⟨⟨item, ts₁⟩, hitem, h⟩ := Option.bind_eq_some_iff.mp h
    obtain ⟨els₁, p₁, hpass₁, hblock₁⟩ := ih.expr hitem hts
    obtain ⟨-, hts₁, -⟩ := hpass₁.bounds hts
    exact .after hpass₁ (ih.moreItems h hts₁ hblock₁)

theorem reads_moreItems {delimiter : Delimiter} {first : Expr} {items : List Expr}
    (h : readMoreItems d (fuel + 1) delimiter first ts = some (items, stop, rest))
    (hts : Ordered pos ts) (hfirst : ExprBlock lo pos first els) :
    ReadsItems lo pos ts delimiter els items stop rest := by
  unfold readMoreItems at h
  split at h
  · rename_i hcomma
    obtain ⟨⟨items', stop', rest'⟩, hmore, h⟩ := Option.bind_eq_some_iff.mp h
    simp only [Option.pure_def, Option.some.injEq, Prod.mk.injEq] at h
    obtain ⟨rfl, rfl, rfl⟩ := h
    obtain ⟨hstart, hforward, hinside⟩ := hts.token hcomma
    obtain ⟨els', mid, hcloses, hitems, hformed⟩ := ih.items hmore hinside
    obtain ⟨hmid, -, -, -⟩ := hcloses.bounds hinside
    have hstop := hfirst.stop
    have hle := hfirst.le
    refine ⟨els', mid, hcloses.after (passes_token hcomma rfl), fun source shape => ?_,
      hfirst.cons (hformed.mono (by omega) (Nat.le_refl _))⟩
    rw [listUnits]
    exact ((hfirst.units source shape).mono hfirst.start hstop).append (hitems source shape)
      (by omega) (by omega) (by omega)
  · rename_i e s inside hclose
    split at h
    · rename_i he
      subst he
      simp only [Option.some.injEq, Prod.mk.injEq] at h
      obtain ⟨rfl, rfl, rfl⟩ := h
      obtain ⟨mid, hcloses⟩ := Closes.of_token pos hclose
      obtain ⟨hmid, -, -, -⟩ := hcloses.bounds hts
      refine ⟨[], mid, hcloses, fun source shape => ?_, hfirst.cons ⟨hmid, by simp⟩⟩
      rw [listUnits, listUnits, List.append_nil, List.append_nil]
      exact (hfirst.units source shape).mono hfirst.start (Nat.le_trans hfirst.stop hmid)
    · exact absurd h (by simp)
  · exact absurd h (by simp)

theorem reads_holes {holes : List (Span × Expr)}
    (h : readHoles d (fuel + 1) ts = some (holes, stop, rest)) (hts : Ordered pos ts) :
    ReadsHoles pos ts holes stop rest := by
  unfold readHoles at h
  split at h
  · simp only [Option.some.injEq, Prod.mk.injEq] at h
    obtain ⟨rfl, rfl, rfl⟩ := h
    obtain ⟨hstart, hforward, -⟩ := hts
    refine ⟨[], pos, ⟨_, .refl _ _, rfl, rfl⟩, fun source shape start after lo _ hlo => ?_,
      Nat.le_sub_one_of_lt (Nat.lt_of_le_of_lt hstart hforward), by simp, by simp⟩
    rw [holeUnits]
    split
    · exact block_segmentUnits source after false hlo (by dsimp only at hforward; omega)
    · exact .nil _ _
  · rename_i s inside
    obtain ⟨hstart, hforward, hinside⟩ := hts
    obtain ⟨⟨e, ts₁⟩, he, h⟩ := Option.bind_eq_some_iff.mp h
    obtain ⟨els₁, p₁, hpass₁, hblock₁⟩ := ih.sequence he hinside
    obtain ⟨-, hts₁, -⟩ := hpass₁.bounds hinside
    dsimp only at h hstart hforward
    split at h
    · rename_i s' ts₂ hclose
      obtain ⟨hcstart, hcforward, hts₂⟩ := hts₁.token hclose
      obtain ⟨⟨holes', stop', rest'⟩, hmore, h⟩ := Option.bind_eq_some_iff.mp h
      simp only [Option.pure_def, Option.some.injEq, Prod.mk.injEq] at h
      obtain ⟨rfl, rfl, rfl⟩ := h
      obtain ⟨els₂, mid, hcloses, hblocks, hformed⟩ := ih.holes hmore hts₂
      obtain ⟨hmid, hlast, -, -⟩ := hcloses.bounds hts₂
      have hpass : Passes pos (⟨.opening .hole, s⟩ :: inside) els₁ s'.stop ts₂ :=
        passes_group (by decide) (skipComments_opening rfl inside) rfl hpass₁ hclose rfl
      dsimp only at hcstart hcforward hmid
      have hfirst := hblock₁.start
      have hestop := hblock₁.stop
      have heforward := hblock₁.forward
      dsimp only at hfirst
      have hlast' : e.span.stop ≤ s'.stop := by omega
      have hinner : Span.Row s.start s'.stop [e.span] := ⟨by omega, by omega, hlast'⟩
      refine ⟨els₁ ++ els₂, mid, hcloses.after hpass,
        fun source shape start after lo hpos hlo => ?_,
        ⟨⟨hstart, by dsimp only; omega, hformed.row⟩,
          List.forall_mem_cons.mpr ⟨hinner, hformed.inner⟩,
          List.forall_mem_cons.mpr ⟨hblock₁.formed, hformed.formed⟩⟩⟩
      -- the text in front of the hole, the hole, and the rest of the template
      have hsegment : Block lo (s.start + 1) (segmentUnits source ⟨start, s.start⟩ after true) [] :=
        block_segmentUnits source after true hlo (by omega)
      have hfront := hsegment.append (hblock₁.units source shape) (by omega) (by omega) (by omega)
      have hbehind := hblocks source shape s'.stop true (s'.stop - 1) (Nat.le_refl _) (by omega)
      rw [holeUnits]
      exact hfront.append hbehind (by omega) (by omega) (by omega)
    · exact absurd h (by simp)
  · exact absurd h (by simp)

end

/-! ## Functions, words and operands -/

section

variable {d : Dialect} {fuel : Nat} (ih : Readers d fuel) {lo start pos stop : Nat}
  {ts rest : Lexemes} {e : Expr} {els : List Span}

include ih

theorem reads_arrowBody (h : readArrowBody d (fuel + 1) start ts = some (e, rest))
    (hts : Ordered pos ts) (hlo : lo ≤ start) (hstart : start < pos) (hels : Within start pos els) :
    Reads lo pos ts els e rest := by
  unfold readArrowBody at h
  split at h
  · rename_i hbody
    obtain ⟨rfl, rfl⟩ := Prod.mk.inj (Option.some.inj h)
    exact .of_skips (skips_skipGroup? hbody) hts hlo hstart hels
  · obtain ⟨⟨body, ts₁⟩, hbody, h⟩ := Option.bind_eq_some_iff.mp h
    obtain ⟨rfl, rfl⟩ := Prod.mk.inj (Option.some.inj h)
    refine (ih.expr hbody hts).other hlo hstart (.refl _ _) ?_
    rw [List.append_nil]
    exact hels

/-- The body of a function whose parameters have been skipped. -/
theorem reads_arrow {p : Nat} {ts' : Lexemes} (h : readArrowBody d fuel start ts' = some (e, rest))
    (hskips : Skips pos ts p ts') (hts : Ordered pos ts) (hlo : lo ≤ start) (hstart : start < pos) :
    Reads lo pos ts [] e rest := by
  obtain ⟨els', hpass⟩ := hskips
  obtain ⟨hle, hts', hels'⟩ := hpass.bounds hts
  refine .after hpass (ih.arrowBody h hts' hlo (by omega) ?_)
  exact Within.mono hels' (Nat.le_of_lt hstart) (Nat.le_refl _)

theorem reads_wordOperand {w : String} {s : Span}
    (h : readWordOperand d (fuel + 1) w s ts = some (e, rest)) (hts : Ordered pos ts)
    (hlo : lo ≤ s.start) (hforward : s.start < s.stop) (hpos : s.stop ≤ pos) :
    Reads lo pos ts [] e rest := by
  have hstart : s.start < pos := Nat.lt_of_lt_of_le hforward hpos
  have hname : ExprBlock lo pos (.other s) [] := .other hlo hforward hpos (within_nil _ _)
  unfold readWordOperand at h
  split at h
  · -- a function: perhaps a star, perhaps a name
    obtain ⟨⟨stop, ts₁⟩, hfunction, h⟩ := Option.bind_eq_some_iff.mp h
    obtain ⟨rfl, rfl⟩ := Prod.mk.inj (Option.some.inj h)
    obtain ⟨p, hpass⟩ := passes_optionalPunct "*" pos ts
    have hstar : Skips pos ts p _ := ⟨[], hpass⟩
    have hskips : Skips pos ts stop ts₁ := by
      split at hfunction
      · rename_i hword
        exact hstar.trans ((skips_token hword rfl).trans (skips_function hfunction))
      · exact hstar.trans (skips_function hfunction)
    exact .of_skips hskips hts hlo hstart (within_nil _ _)
  split at h
  · obtain ⟨⟨stop, ts₁⟩, hclass, h⟩ := Option.bind_eq_some_iff.mp h
    obtain ⟨rfl, rfl⟩ := Prod.mk.inj (Option.some.inj h)
    exact .of_skips (skips_class _ hclass) hts hlo hstart (within_nil _ _)
  split at h
  · exact ih.construct h hts hlo hstart
  split at h
  · exact absurd h (by simp)
  split at h
  · exact absurd h (by simp)
  split at h
  · rename_i harrow
    exact reads_arrow ih h (skips_punct harrow) hts hlo hstart
  split at h
  · -- `async`: a function, an arrow function, or a name after all
    split at h
    · rename_i hfunction
      obtain ⟨hfstart, hfforward, hinside⟩ := hts.token hfunction
      obtain ⟨⟨e', rest'⟩, hoperand, h⟩ := Option.bind_eq_some_iff.mp h
      obtain ⟨rfl, rfl⟩ := Prod.mk.inj (Option.some.inj h)
      dsimp only at hfstart hfforward
      exact .skip (passes_token hfunction rfl)
        (ih.wordOperand hoperand hinside hlo hforward (by dsimp only; omega))
    · rename_i hword
      split at h
      · rename_i harrow
        exact reads_arrow ih h ((skips_token hword rfl).trans (skips_punct harrow)) hts hlo hstart
      · exact .stay hname h
    · split at h
      · rename_i harrow
        obtain ⟨p, htypes⟩ := skips_optionalTypeParameters d pos ts
        obtain ⟨p', hskips⟩ := skips_arrow p harrow
        exact reads_arrow ih h (htypes.trans hskips) hts hlo hstart
      · exact .stay hname h
  · exact .stay hname h

theorem reads_construct (h : readNew d (fuel + 1) start ts = some (e, rest)) (hts : Ordered pos ts)
    (hlo : lo ≤ start) (hstart : start < pos) : Reads lo pos ts [] e rest := by
  unfold readNew at h
  split at h
  · rename_i hdot
    split at h
    · rename_i htarget
      obtain ⟨rfl, rfl⟩ := Prod.mk.inj (Option.some.inj h)
      exact .of_skips ((skips_token hdot rfl).trans (skips_token htarget rfl)) hts hlo hstart
        (within_nil _ _)
    · exact absurd h (by simp)
  · obtain ⟨⟨callee, ts₁⟩, hcallee, h⟩ := Option.bind_eq_some_iff.mp h
    obtain ⟨els₁, p₁, hpass₁, hblock₁⟩ := ih.primary hcallee hts
    obtain ⟨-, hts₁, -⟩ := hpass₁.bounds hts
    have hfirst := hblock₁.start
    have hforward := hblock₁.forward
    refine .after hpass₁ (ih.constructSuffixes h hts₁ hlo ?_ hblock₁.stop ?_)
    · show start < callee.span.stop
      omega
    · exact hblock₁.covers.mono (by omega) (Nat.le_refl _)

theorem reads_constructSuffixes (h : readNewSuffixes d (fuel + 1) start stop ts = some (e, rest))
    (hts : Ordered pos ts) (hlo : lo ≤ start) (hstart : start < stop) (hstop : stop ≤ pos)
    (hels : Within start stop els) : Reads lo pos ts els e rest := by
  have hother : ExprBlock lo pos (.other ⟨start, stop⟩) els := .other hlo hstart hstop hels
  -- whatever is skipped belongs to the expression
  have hmore : ∀ {stop' : Nat} {ts' : Lexemes}, Skips pos ts stop' ts' →
      readNewSuffixes d fuel start stop' ts' = some (e, rest) → Reads lo pos ts els e rest := by
    intro stop' ts' hskips h
    obtain ⟨els', hpass⟩ := hskips
    obtain ⟨hle, hts', hels'⟩ := hpass.bounds hts
    refine .after hpass (ih.constructSuffixes h hts' hlo (by omega) (Nat.le_refl _) ?_)
    exact (hels.mono (Nat.le_refl _) (by omega)).append
      (Within.mono hels' (by omega) (Nat.le_refl _))
  unfold readNewSuffixes at h
  split at h
  · rename_i hdot
    split at h
    · rename_i hname
      exact hmore ((skips_token hdot rfl).trans (skips_token hname rfl)) h
    · exact absurd h (by simp)
  · rename_i hopen
    obtain ⟨⟨stop', ts'⟩, hclose, h⟩ := Option.bind_eq_some_iff.mp h
    exact hmore (skips_group hopen rfl hclose) h
  · rename_i inside hless
    split at h
    · rename_i hlist
      split at hlist
      · exact hmore ((skips_token hless rfl).trans ((skipsTypes fuel).list hlist)) h
      · exact absurd hlist (by simp)
    · exact .stay hother h
  · rename_i s inside hopen
    obtain ⟨⟨args, stop', ts'⟩, hargs, h⟩ := Option.bind_eq_some_iff.mp h
    obtain ⟨rfl, rfl⟩ := Prod.mk.inj (Option.some.inj h)
    obtain ⟨hostart, hoforward, hinside⟩ := hts.token hopen
    obtain ⟨els', mid, hcloses, -⟩ := ih.items hargs hinside
    obtain ⟨p, hcomments⟩ := passes_skipComments pos ts
    rw [hopen] at hcomments
    have hskips : Skips pos ts stop' ts' := ⟨_, hcomments.trans (hcloses.group rfl (by decide))⟩
    refine .of_skips hskips hts hlo (Nat.lt_of_lt_of_le hstart hstop) ?_
    exact hels.mono (Nat.le_refl _) hstop
  · exact .stay hother h

theorem reads_primary (h : readPrimary d (fuel + 1) ts = some (e, rest)) (hts : Ordered pos ts) :
    Reads pos pos ts [] e rest := by
  unfold readPrimary at h
  split at h
  · rename_i escaped s inside htoken
    obtain ⟨hstart, hforward, -⟩ := hts.token htoken
    obtain ⟨rfl, rfl⟩ := Prod.mk.inj (Option.some.inj h)
    exact ⟨[], s.stop, passes_token htoken rfl, .string hstart hforward (Nat.le_refl _) escaped⟩
  · rename_i s inside htoken
    obtain ⟨hstart, hforward, -⟩ := hts.token htoken
    obtain ⟨rfl, rfl⟩ := Prod.mk.inj (Option.some.inj h)
    exact ⟨[], s.stop, passes_token htoken rfl,
      .other hstart hforward (Nat.le_refl _) (within_nil _ _)⟩
  · rename_i w s inside htoken
    obtain ⟨hstart, hforward, hinside⟩ := hts.token htoken
    exact .skip (passes_token htoken rfl)
      (ih.wordOperand h hinside hstart hforward (Nat.le_refl _))
  · rename_i s inside hopen
    obtain ⟨hstart, hforward, hinside⟩ := hts.token hopen
    obtain ⟨p, hcomments⟩ := passes_skipComments pos ts
    rw [hopen] at hcomments
    split at h
    · rename_i inside' harrow
      obtain ⟨o, inside₁, mid, ts₁, hopen₁, -, hclose, hlast⟩ := arrow_cases harrow
      rw [skipComments_opening rfl] at hopen₁
      injection hopen₁ with _ hinside₁
      subst hinside₁
      obtain ⟨els₁, last, hcloses⟩ := Closes.of_closeAll? s.stop hclose
      obtain ⟨hle, hlt, hts₁, hels₁⟩ := hcloses.bounds hinside
      obtain ⟨p', els₂, hpass₂⟩ := hlast mid
      obtain ⟨hle', hts₂, hels₂⟩ := hpass₂.bounds hts₁
      dsimp only at hforward
      refine .skip hcomments (.after (hcloses.group rfl (by decide)) (.after hpass₂ ?_))
      refine ih.arrowBody h hts₂ hstart (by omega) (Within.append ?_ ?_)
      · exact hels₁.mono (by omega) (by omega)
      · exact Within.mono hels₂ (by omega) (Nat.le_refl _)
    · obtain ⟨⟨inner, ts₁⟩, hinner, h⟩ := Option.bind_eq_some_iff.mp h
      obtain ⟨els₁, p₁, hpass₁, hblock₁⟩ := ih.sequence hinner hinside
      obtain ⟨-, hts₁, -⟩ := hpass₁.bounds hinside
      dsimp only at h
      split at h
      · rename_i s' ts₂ hclose
        obtain ⟨hcstart, hcforward, -⟩ := hts₁.token hclose
        obtain ⟨rfl, rfl⟩ := Prod.mk.inj (Option.some.inj h)
        exact ⟨els₁, s'.stop, passes_group (by decide) hopen rfl hpass₁ hclose rfl,
          hblock₁.paren hstart (Nat.le_of_lt hforward)
            (Nat.le_trans hcstart (Nat.le_of_lt hcforward)) (Nat.le_refl _)⟩
      · exact absurd h (by simp)
  · rename_i s inside hopen
    obtain ⟨hstart, hforward, hinside⟩ := hts.token hopen
    obtain ⟨⟨items, stop, ts₁⟩, hitems, h⟩ := Option.bind_eq_some_iff.mp h
    obtain ⟨rfl, rfl⟩ := Prod.mk.inj (Option.some.inj h)
    obtain ⟨els₁, mid, hcloses, hblocks, hformed⟩ := ih.items hitems hinside
    obtain ⟨hmid, hstop, -, -⟩ := hcloses.bounds hinside
    obtain ⟨p, hcomments⟩ := passes_skipComments pos ts
    rw [hopen] at hcomments
    exact ⟨els₁, stop, hcomments.trans (hcloses.group rfl (by decide)),
      .array hstart hforward hblocks hformed hmid (Nat.le_of_lt hstop)⟩
  · rename_i s inside hopen
    obtain ⟨hstart, hforward, hinside⟩ := hts.token hopen
    obtain ⟨⟨ms, stop, ts₁⟩, hms, h⟩ := Option.bind_eq_some_iff.mp h
    obtain ⟨rfl, rfl⟩ := Prod.mk.inj (Option.some.inj h)
    obtain ⟨els₁, mid, hcloses, hrow⟩ := ih.members hms hinside
    obtain ⟨-, hstop, -, -⟩ := hcloses.bounds hinside
    obtain ⟨p, hcomments⟩ := passes_skipComments pos ts
    rw [hopen] at hcomments
    exact ⟨els₁, stop, hcomments.trans (hcloses.group rfl (by decide)),
      .object hstart hforward hrow hstop⟩
  · rename_i s inside hopen
    obtain ⟨hstart, hforward, hinside⟩ := hts.token hopen
    obtain ⟨⟨holes, stop, ts₁⟩, hholes, h⟩ := Option.bind_eq_some_iff.mp h
    obtain ⟨rfl, rfl⟩ := Prod.mk.inj (Option.some.inj h)
    obtain ⟨els₁, mid, hcloses, hblocks, hformed⟩ := ih.holes hholes hinside
    obtain ⟨hmid, hstop, -, -⟩ := hcloses.bounds hinside
    obtain ⟨p, hcomments⟩ := passes_skipComments pos ts
    rw [hopen] at hcomments
    dsimp only at hforward hmid
    exact ⟨els₁, stop, hcomments.trans (hcloses.group rfl (by decide)),
      .template hstart (by omega) (hformed.mono hforward) fun source shape =>
        hblocks source shape (s.start + 1) false s.start hforward (Nat.lt_succ_self _)⟩
  · rename_i s inside hopen
    obtain ⟨hstart, hforward, hinside⟩ := hts.token hopen
    obtain ⟨⟨stop, ts₁⟩, hclose, h⟩ := Option.bind_eq_some_iff.mp h
    obtain ⟨rfl, rfl⟩ := Prod.mk.inj (Option.some.inj h)
    obtain ⟨els₁, mid, hcloses⟩ := Closes.of_closeAll? s.stop hclose
    obtain ⟨hmid, hstop, -, -⟩ := hcloses.bounds hinside
    obtain ⟨p, hcomments⟩ := passes_skipComments pos ts
    rw [hopen] at hcomments
    dsimp only at hforward
    refine ⟨[⟨s.start, stop⟩], stop, hcomments.trans (hcloses.element rfl),
      .other hstart (by omega) (Nat.le_refl _) ?_⟩
    intro el hel
    rw [List.nil_append, List.mem_singleton] at hel
    subst hel
    exact ⟨Nat.le_refl _, Nat.le_refl _⟩
  · rename_i s inside hless
    obtain ⟨hstart, hforward, hinside⟩ := hts.token hless
    split at h
    · obtain ⟨⟨p, ts₁⟩, hparams, h⟩ := Option.bind_eq_some_iff.mp h
      obtain ⟨ts₂, harrow, h⟩ := Option.bind_eq_some_iff.mp h
      obtain ⟨p', hskips⟩ := skips_arrow p harrow
      exact .skip (passes_token hless rfl)
        (reads_arrow ih h ((skips_typeParameters _ hparams).trans hskips) hinside hstart hforward)
    · exact absurd h (by simp)
  · exact absurd h (by simp)

end

end ClassSort.Script
