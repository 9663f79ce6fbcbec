import ClassSort.Proofs.LexemeEnds
import ClassSort.Proofs.ReaderSpecs

/-!
# Trees that end between characters

All offsets in a tree that is read are ends of lexemes, so they are between characters. The readers
take the first and the last offset of a range from different places, and it is not asked here
which of them comes first: that the ranges are in order is said by well-formedness.

As there, a reader that continues something is told about it, and one induction on the fuel carries
all readers together.
-/

namespace ClassSort.Script

/-! ## Aligned trees -/

/-- A key that ends between characters, and a string without its quotes as well. -/
structure Key.Aligned (source : Text) (k : Key) : Prop where
  ends : k.span.Aligned source
  quotes : ∀ s escaped, k = .string s escaped → (unquoted s).Aligned source

theorem Key.aligned_name {source : Text} {s : Span} (h : s.Aligned source) :
    (Key.name s).Aligned source :=
  ⟨h, fun s' escaped heq => absurd heq (by simp)⟩

theorem Key.aligned_other {source : Text} {s : Span} (h : s.Aligned source) :
    (Key.other s).Aligned source :=
  ⟨h, fun s' escaped heq => absurd heq (by simp)⟩

/-- Every range in the tree ends between characters, and a string without its quotes as well. -/
inductive Expr.Aligned (source : Text) : Expr → Prop
  | string {s : Span} {escaped : Bool} (hs : s.Aligned source)
      (hquotes : (unquoted s).Aligned source) : Aligned source (.string s escaped)
  | template {s : Span} {holes : List (Span × Expr)} (hs : s.Aligned source)
      (hholes : ∀ h ∈ holes, Aligned source h.2) : Aligned source (.template s holes)
  | paren {s : Span} {inner : Expr} (hs : s.Aligned source) (hinner : Aligned source inner) :
      Aligned source (.paren s inner)
  | wrapped {s : Span} {inner : Expr} (hs : s.Aligned source) (hinner : Aligned source inner) :
      Aligned source (.wrapped s (some inner))
  | binary {s : Span} {op : BinaryOp} {left right : Expr} (hs : s.Aligned source)
      (hleft : Aligned source left) (hright : Aligned source right) :
      Aligned source (.binary s op left right)
  | ternary {s : Span} {condition consequence alternative : Expr} (hs : s.Aligned source)
      (hcondition : Aligned source condition) (hconsequence : Aligned source consequence)
      (halternative : Aligned source alternative) :
      Aligned source (.ternary s condition consequence alternative)
  | call {s : Span} {callee : Expr} {arguments : List Expr} (hs : s.Aligned source)
      (hcallee : Aligned source callee) (harguments : ∀ a ∈ arguments, Aligned source a) :
      Aligned source (.call s callee arguments)
  | array {s : Span} {items : List Expr} (hs : s.Aligned source)
      (hitems : ∀ i ∈ items, Aligned source i) : Aligned source (.array s items)
  | object {s : Span} {members : List Member} (hs : s.Aligned source)
      (hpairs : ∀ p k v, Member.pair p k v ∈ members → p.Aligned source ∧ k.Aligned source)
      (hvalues : ∀ p k v, Member.pair p k v ∈ members → Aligned source v) :
      Aligned source (.object s members)
  | subscript {s : Span} {object index : Expr} (hs : s.Aligned source)
      (hobject : Aligned source object) (hindex : Aligned source index) :
      Aligned source (.subscript s object index)
  | other {s : Span} (hs : s.Aligned source) : Aligned source (.other s)

/-- A member with its key and its value. -/
def Member.Aligned (source : Text) (m : Member) : Prop :=
  ∀ p k v, m = .pair p k v → p.Aligned source ∧ k.Aligned source ∧ v.Aligned source

theorem Member.aligned_other (source : Text) (s : Span) : (Member.other s).Aligned source :=
  fun p k v heq => absurd heq (by simp)

namespace Expr.Aligned

variable {source : Text} {e e' : Expr}

theorem span (h : e.Aligned source) : e.span.Aligned source := by
  cases h <;> assumption

/-- From the beginning of an expression up to the end of something behind it. -/
theorem upTo (h : e.Aligned source) {stop : Nat} (hstop : source.Boundary stop) :
    Span.Aligned source ⟨e.span.start, stop⟩ := ⟨h.span.1, hstop⟩

/-- From something in front of an expression to its end. -/
theorem behind (h : e.Aligned source) {start : Nat} (hstart : source.Boundary start) :
    Span.Aligned source ⟨start, e.span.stop⟩ := ⟨hstart, h.span.2⟩

theorem unparen (h : e.Aligned source) : e.unparen.Aligned source := by
  induction h with
  | paren _ _ ih => exact ih
  | _ => constructor <;> assumption

/-- What the walk reaches in an aligned tree is aligned. -/
theorem of_reaches (h : e.Aligned source) (hreach : e.Reaches e') : e'.Aligned source := by
  induction hreach with
  | refl e => exact h
  | hole hmem _ ih =>
      cases h with
      | template _ hholes => exact ih (hholes _ hmem)
  | paren _ ih =>
      cases h with
      | paren _ hinner => exact ih hinner
  | wrapped _ ih =>
      cases h with
      | wrapped _ hinner => exact ih hinner
  | left _ _ ih =>
      cases h with
      | binary _ hleft _ => exact ih hleft
  | right _ _ ih =>
      cases h with
      | binary _ _ hright => exact ih hright
  | consequence _ ih =>
      cases h with
      | ternary _ _ hconsequence _ => exact ih hconsequence
  | alternative _ ih =>
      cases h with
      | ternary _ _ _ halternative => exact ih halternative
  | argument hmem _ ih =>
      cases h with
      | call _ _ harguments => exact ih (harguments _ hmem)
  | item hmem _ ih =>
      cases h with
      | array _ hitems => exact ih (hitems _ hmem)
  | map hobject =>
      cases h with
      | subscript _ hobj _ => exact hobject ▸ hobj.unparen

end Expr.Aligned

/-! ## Aligned lexemes -/

/-- Lexemes of a text. -/
def AlignedLexemes (source : Text) (ts : Lexemes) : Prop := ∀ t ∈ ts, t.Aligned source

namespace AlignedLexemes

variable {source : Text} {pos stop : Nat} {ts rest : Lexemes}

theorem of_suffix (h : AlignedLexemes source ts) (hrest : rest <:+ ts) :
    AlignedLexemes source rest := by
  intro t ht
  exact h t (hrest.mem ht)

theorem token {t : Lexeme} (h : AlignedLexemes source ts) (hts : skipComments ts = t :: rest) :
    t.Aligned source ∧ AlignedLexemes source rest := by
  have hsuffix : AlignedLexemes source (t :: rest) := by
    rw [← hts]
    exact h.of_suffix (List.dropWhile_suffix _)
  exact ⟨hsuffix t List.mem_cons_self, hsuffix.of_suffix (List.suffix_cons _ _)⟩

/-- What is passed over ends with a lexeme. -/
theorem passes {els : List Span} (hpass : Passes pos ts els stop rest)
    (h : AlignedLexemes source ts) (hpos : source.Boundary pos) : source.Boundary stop ∧ AlignedLexemes source rest := by
  refine ⟨?_, h.of_suffix hpass.suffix⟩
  induction hpass with
  | refl pos ts => exact hpos
  | skip _ _ ih =>
      exact ih (h.of_suffix (List.suffix_cons _ _)) (h _ List.mem_cons_self).ends.2
  | group _ hinner _ _ _ ih =>
      -- the closing of a construct is one of the lexemes behind its opening
      have hclosing := (h.of_suffix (List.suffix_cons _ _)).of_suffix hinner.suffix
      exact ih (hclosing.of_suffix (List.suffix_cons _ _)) (hclosing _ List.mem_cons_self).ends.2

theorem skips (h : AlignedLexemes source ts) (hskips : Skips 0 ts stop rest) :
    source.Boundary stop ∧ AlignedLexemes source rest := by
  obtain ⟨els, hpass⟩ := hskips
  exact passes hpass h ⟨[], source, rfl, rfl⟩

theorem punct {text : String} (h : AlignedLexemes source ts)
    (hts : skipPunct? text ts = some (stop, rest)) : AlignedLexemes source rest :=
  (h.skips (skips_punct hts)).2

theorem optionalPunct (h : AlignedLexemes source ts) (text : String) :
    AlignedLexemes source (((skipPunct? text ts).map Prod.snd).getD ts) := by
  obtain ⟨stop, hpass⟩ := passes_optionalPunct text 0 ts
  exact h.of_suffix hpass.suffix

theorem operator {op : String} (h : AlignedLexemes source ts)
    (hts : operator? ts = some (op, rest)) : AlignedLexemes source rest := by
  obtain ⟨t, ts', stop, htoken, -, hpass⟩ := passes_operator? hts
  exact (h.token htoken).2.of_suffix hpass.suffix

/-- A construct that is skipped, behind its opening. -/
theorem closeAll {d : Delimiter} (h : AlignedLexemes source ts)
    (hclose : closeAll? [d] ts = some (stop, rest)) :
    source.Boundary stop ∧ AlignedLexemes source rest := by
  obtain ⟨els, mid, c, hpass, -, rfl⟩ := Closes.of_closeAll? 0 hclose
  have hclosing := h.of_suffix hpass.suffix
  exact ⟨(hclosing c List.mem_cons_self).ends.2, hclosing.of_suffix (List.suffix_cons _ _)⟩

theorem arrow {d : Dialect} {fuel : Nat} (h : AlignedLexemes source ts)
    (harrow : skipArrow? d fuel ts = some rest) : AlignedLexemes source rest := by
  obtain ⟨stop, hskips⟩ := skips_arrow 0 harrow
  exact (h.skips hskips).2

end AlignedLexemes

/-! ## The statements -/

/-- What a reader answers with. -/
structure ReadsAligned (source : Text) (e : Expr) (rest : Lexemes) : Prop where
  expr : e.Aligned source
  rest : AlignedLexemes source rest

/-- What the reader of a member answers with. -/
structure ReadsAlignedMember (source : Text) (m : Member) (rest : Lexemes) : Prop where
  member : m.Aligned source
  rest : AlignedLexemes source rest

/-- What the reader of a construct answers with: its parts and its end. -/
structure ClosesAligned {α : Type} (source : Text) (part : α → Prop) (parts : List α) (stop : Nat)
    (rest : Lexemes) : Prop where
  parts : ∀ x ∈ parts, part x
  stop : source.Boundary stop
  rest : AlignedLexemes source rest

theorem ClosesAligned.nil {α : Type} {source : Text} {part : α → Prop} {t : Lexeme}
    {rest : Lexemes} (ht : t.Aligned source) (hrest : AlignedLexemes source rest) :
    ClosesAligned source part [] t.span.stop rest := ⟨by simp, ht.ends.2, hrest⟩

theorem ClosesAligned.cons {α : Type} {source : Text} {part : α → Prop} {x : α} {xs : List α}
    {stop : Nat} {rest : Lexemes} (hx : part x) (h : ClosesAligned source part xs stop rest) :
    ClosesAligned source part (x :: xs) stop rest :=
  ⟨List.forall_mem_cons.mpr ⟨hx, h.parts⟩, h.stop, h.rest⟩

/-- The holes of a template have aligned expressions. -/
def AlignedHole (source : Text) (h : Span × Expr) : Prop := h.2.Aligned source

/-- A reader that stops at once. -/
theorem ReadsAligned.stay {source : Text} {ts rest : Lexemes} {e e' : Expr}
    (heq : some (e, ts) = some (e', rest)) (he : e.Aligned source)
    (hts : AlignedLexemes source ts) : ReadsAligned source e' rest := by
  obtain ⟨rfl, rfl⟩ := Prod.mk.inj (Option.some.inj heq)
  exact ⟨he, hts⟩

/-- What the readers do with some fuel. -/
structure ReadersAligned (source : Text) (d : Dialect) (fuel : Nat) : Prop where
  expr : ∀ {ts rest : Lexemes} {e : Expr}, readExpr d fuel ts = some (e, rest) →
    AlignedLexemes source ts → ReadsAligned source e rest
  sequence : ∀ {ts rest : Lexemes} {e : Expr}, readSequence d fuel ts = some (e, rest) →
    AlignedLexemes source ts → ReadsAligned source e rest
  binary : ∀ {least : Nat} {ts rest : Lexemes} {e : Expr},
    readBinary d fuel least ts = some (e, rest) → AlignedLexemes source ts →
    ReadsAligned source e rest
  operators : ∀ {least : Nat} {ts rest : Lexemes} {left e : Expr},
    readOperators d fuel least left ts = some (e, rest) → AlignedLexemes source ts →
    left.Aligned source → ReadsAligned source e rest
  unary : ∀ {ts rest : Lexemes} {e : Expr}, readUnary d fuel ts = some (e, rest) →
    AlignedLexemes source ts → ReadsAligned source e rest
  suffixed : ∀ {ts rest : Lexemes} {e : Expr}, readPostfix d fuel ts = some (e, rest) →
    AlignedLexemes source ts → ReadsAligned source e rest
  suffixes : ∀ {ts rest : Lexemes} {e e' : Expr}, readSuffixes d fuel e ts = some (e', rest) →
    AlignedLexemes source ts → e.Aligned source → ReadsAligned source e' rest
  index : ∀ {ts rest : Lexemes} {e e' : Expr}, readIndex d fuel e ts = some (e', rest) →
    AlignedLexemes source ts → e.Aligned source → ReadsAligned source e' rest
  items : ∀ {stop : Nat} {delimiter : Delimiter} {ts rest : Lexemes} {items : List Expr},
    readItems d fuel delimiter ts = some (items, stop, rest) → AlignedLexemes source ts →
    ClosesAligned source (Expr.Aligned source) items stop rest
  moreItems : ∀ {stop : Nat} {delimiter : Delimiter} {ts rest : Lexemes} {first : Expr}
    {items : List Expr}, readMoreItems d fuel delimiter first ts = some (items, stop, rest) →
    AlignedLexemes source ts → first.Aligned source →
    ClosesAligned source (Expr.Aligned source) items stop rest
  holes : ∀ {stop : Nat} {ts rest : Lexemes} {holes : List (Span × Expr)},
    readHoles d fuel ts = some (holes, stop, rest) → AlignedLexemes source ts →
    ClosesAligned source (AlignedHole source) holes stop rest
  arrowBody : ∀ {start : Nat} {ts rest : Lexemes} {e : Expr},
    readArrowBody d fuel start ts = some (e, rest) → AlignedLexemes source ts →
    source.Boundary start → ReadsAligned source e rest
  wordOperand : ∀ {w : String} {s : Span} {ts rest : Lexemes} {e : Expr},
    readWordOperand d fuel w s ts = some (e, rest) → AlignedLexemes source ts →
    s.Aligned source → ReadsAligned source e rest
  construct : ∀ {start : Nat} {ts rest : Lexemes} {e : Expr},
    readNew d fuel start ts = some (e, rest) → AlignedLexemes source ts →
    source.Boundary start → ReadsAligned source e rest
  constructSuffixes : ∀ {start stop : Nat} {ts rest : Lexemes} {e : Expr},
    readNewSuffixes d fuel start stop ts = some (e, rest) → AlignedLexemes source ts →
    Span.Aligned source ⟨start, stop⟩ → ReadsAligned source e rest
  primary : ∀ {ts rest : Lexemes} {e : Expr}, readPrimary d fuel ts = some (e, rest) →
    AlignedLexemes source ts → ReadsAligned source e rest
  members : ∀ {stop : Nat} {ts rest : Lexemes} {ms : List Member},
    readMembers d fuel ts = some (ms, stop, rest) → AlignedLexemes source ts →
    ClosesAligned source (Member.Aligned source) ms stop rest
  moreMembers : ∀ {stop : Nat} {ts rest : Lexemes} {first : Member} {ms : List Member},
    readMoreMembers d fuel first ts = some (ms, stop, rest) → AlignedLexemes source ts →
    first.Aligned source → ClosesAligned source (Member.Aligned source) ms stop rest
  member : ∀ {ts rest : Lexemes} {m : Member}, readMember d fuel ts = some (m, rest) →
    AlignedLexemes source ts → ReadsAlignedMember source m rest
  key : ∀ {ts rest : Lexemes} {k : Key}, readKey d fuel ts = some (k, rest) →
    AlignedLexemes source ts → k.Aligned source ∧ AlignedLexemes source rest
  keyed : ∀ {ts rest : Lexemes} {k : Key} {m : Member}, readKeyed d fuel k ts = some (m, rest) →
    AlignedLexemes source ts → k.Aligned source → ReadsAlignedMember source m rest
  method : ∀ {start : Nat} {ts rest : Lexemes} {m : Member},
    readMethod d fuel start ts = some (m, rest) → AlignedLexemes source ts →
    ReadsAlignedMember source m rest

section

variable {source : Text} {d : Dialect} {fuel : Nat} (ih : ReadersAligned source d fuel)
  {start stop : Nat} {ts rest : Lexemes} {e : Expr}

include ih

/-! ## Operators -/

theorem aligned_expr (h : readExpr d (fuel + 1) ts = some (e, rest))
    (hts : AlignedLexemes source ts) : ReadsAligned source e rest := by
  unfold readExpr at h
  obtain ⟨⟨left, ts₁⟩, hleft, h⟩ := Option.bind_eq_some_iff.mp h
  obtain ⟨hl, hts₁⟩ := ih.binary hleft hts
  dsimp only at h
  split at h
  · exact .stay h hl hts₁
  · rename_i hquestion
    obtain ⟨⟨c, ts₂⟩, hconsequence, h⟩ := Option.bind_eq_some_iff.mp h
    obtain ⟨⟨q, ts₃⟩, hcolon, h⟩ := Option.bind_eq_some_iff.mp h
    obtain ⟨⟨a, ts₄⟩, halternative, h⟩ := Option.bind_eq_some_iff.mp h
    obtain ⟨hc, hts₂⟩ := ih.expr hconsequence (hts₁.punct hquestion)
    obtain ⟨ha, hts₄⟩ := ih.expr halternative (hts₂.punct hcolon)
    exact .stay h (.ternary (hl.upTo ha.span.2) hl hc ha) hts₄

theorem aligned_sequence (h : readSequence d (fuel + 1) ts = some (e, rest))
    (hts : AlignedLexemes source ts) : ReadsAligned source e rest := by
  unfold readSequence at h
  obtain ⟨⟨first, ts₁⟩, hfirst, h⟩ := Option.bind_eq_some_iff.mp h
  obtain ⟨hf, hts₁⟩ := ih.expr hfirst hts
  dsimp only at h
  split at h
  · exact .stay h hf hts₁
  · rename_i hcomma
    obtain ⟨⟨more, ts₂⟩, hmore, h⟩ := Option.bind_eq_some_iff.mp h
    obtain ⟨hm, hts₂⟩ := ih.sequence hmore (hts₁.punct hcomma)
    exact .stay h (.other (hf.upTo hm.span.2)) hts₂

theorem aligned_binary {least : Nat} (h : readBinary d (fuel + 1) least ts = some (e, rest))
    (hts : AlignedLexemes source ts) : ReadsAligned source e rest := by
  unfold readBinary at h
  obtain ⟨⟨left, ts₁⟩, hleft, h⟩ := Option.bind_eq_some_iff.mp h
  obtain ⟨hl, hts₁⟩ := ih.unary hleft hts
  exact ih.operators h hts₁ hl

theorem aligned_operators {least : Nat} {left : Expr}
    (h : readOperators d (fuel + 1) least left ts = some (e, rest))
    (hts : AlignedLexemes source ts) (hl : left.Aligned source) : ReadsAligned source e rest := by
  unfold readOperators at h
  split at h
  · rename_i hop
    split at h
    · split at h
      · exact .stay h hl hts
      · obtain ⟨⟨right, ts₁⟩, hright, h⟩ := Option.bind_eq_some_iff.mp h
        obtain ⟨hr, hts₁⟩ := ih.binary hright (hts.operator hop)
        exact ih.operators h hts₁ (.binary (hl.upTo hr.span.2) hl hr)
    · exact .stay h hl hts
  · split at h
    · rename_i hword
      split at h
      · obtain ⟨⟨q, ts₁⟩, htype, h⟩ := Option.bind_eq_some_iff.mp h
        obtain ⟨hq, hts₁⟩ := (hts.token hword).2.skips ((skipsTypes fuel).type htype)
        exact ih.operators h hts₁ (.wrapped (hl.upTo hq) hl)
      · exact .stay h hl hts
    · exact .stay h hl hts

theorem aligned_unary (h : readUnary d (fuel + 1) ts = some (e, rest))
    (hts : AlignedLexemes source ts) : ReadsAligned source e rest := by
  unfold readUnary at h
  split at h
  · rename_i htoken
    obtain ⟨ht, hinside⟩ := hts.token htoken
    split at h
    · obtain ⟨⟨operand, ts₁⟩, hoperand, h⟩ := Option.bind_eq_some_iff.mp h
      obtain ⟨ho, hts₁⟩ := ih.unary hoperand hinside
      exact .stay h (.other (ho.behind ht.ends.1)) hts₁
    · exact ih.suffixed h hts
  · rename_i htoken
    obtain ⟨ht, hinside⟩ := hts.token htoken
    split at h
    · obtain ⟨⟨operand, ts₁⟩, hoperand, h⟩ := Option.bind_eq_some_iff.mp h
      obtain ⟨ho, hts₁⟩ := ih.unary hoperand hinside
      exact .stay h (.other (ho.behind ht.ends.1)) hts₁
    · split at h
      · have hinside' := hinside.optionalPunct "*"
        dsimp only at h
        split at h
        · obtain ⟨⟨value, ts₁⟩, hvalue, h⟩ := Option.bind_eq_some_iff.mp h
          obtain ⟨hv, hts₁⟩ := ih.expr hvalue hinside'
          exact .stay h (.other (hv.behind ht.ends.1)) hts₁
        · exact .stay h (.other ht.ends) hinside'
      · exact ih.suffixed h hts
  · exact ih.suffixed h hts

theorem aligned_suffixed (h : readPostfix d (fuel + 1) ts = some (e, rest))
    (hts : AlignedLexemes source ts) : ReadsAligned source e rest := by
  unfold readPostfix at h
  obtain ⟨⟨first, ts₁⟩, hprimary, h⟩ := Option.bind_eq_some_iff.mp h
  obtain ⟨⟨e₂, ts₂⟩, hsuffixes, h⟩ := Option.bind_eq_some_iff.mp h
  obtain ⟨hf, hts₁⟩ := ih.primary hprimary hts
  obtain ⟨he, hts₂⟩ := ih.suffixes hsuffixes hts₁ hf
  dsimp only at h
  split at h
  · rename_i hop
    split at h
    · -- the mark behind the operand is the first lexeme of the operator
      obtain ⟨t, ts', stop, htoken, -, hpass⟩ := passes_operator? hop
      obtain ⟨ht, hts'⟩ := hts₂.token htoken
      rw [htoken] at h
      exact .stay h (.other (he.upTo ht.ends.2)) (hts'.of_suffix hpass.suffix)
    · split at h
      · obtain ⟨⟨value, ts₃⟩, hvalue, h⟩ := Option.bind_eq_some_iff.mp h
        obtain ⟨hv, hts₃⟩ := ih.expr hvalue (hts₂.operator hop)
        exact .stay h (.other (he.upTo hv.span.2)) hts₃
      · exact .stay h he hts₂
  · exact .stay h he hts₂

/-! ## What stands behind an operand -/

theorem aligned_index {e' : Expr} (h : readIndex d (fuel + 1) e ts = some (e', rest))
    (hts : AlignedLexemes source ts) (he : e.Aligned source) : ReadsAligned source e' rest := by
  unfold readIndex at h
  obtain ⟨⟨index, ts₁⟩, hindex, h⟩ := Option.bind_eq_some_iff.mp h
  obtain ⟨hi, hts₁⟩ := ih.sequence hindex hts
  dsimp only at h
  split at h
  · rename_i hclose
    obtain ⟨hc, hts₂⟩ := hts₁.token hclose
    exact ih.suffixes h hts₂ (.subscript (he.upTo hc.ends.2) he hi)
  · exact absurd h (by simp)

theorem aligned_suffixes {e' : Expr} (h : readSuffixes d (fuel + 1) e ts = some (e', rest))
    (hts : AlignedLexemes source ts) (he : e.Aligned source) : ReadsAligned source e' rest := by
  -- a property and a call stand behind `.` or `?.` or the operand itself
  have hproperty {ts' ts'' : Lexemes} {t : Lexeme} (hts' : AlignedLexemes source ts')
      (htoken : skipComments ts' = t :: ts'')
      (h : readSuffixes d fuel (.other ⟨e.span.start, t.span.stop⟩) ts'' = some (e', rest)) :
      ReadsAligned source e' rest := by
    obtain ⟨ht, hts''⟩ := hts'.token htoken
    exact ih.suffixes h hts'' (.other (he.upTo ht.ends.2))
  have hcall {ts' : Lexemes} (hts' : AlignedLexemes source ts')
      (h : ((readItems d fuel .paren ts').bind fun r =>
        readSuffixes d fuel (.call ⟨e.span.start, r.2.1⟩ e r.1) r.2.2) = some (e', rest)) :
      ReadsAligned source e' rest := by
    obtain ⟨⟨args, stop, ts''⟩, hitems, h⟩ := Option.bind_eq_some_iff.mp h
    obtain ⟨hargs, hstop, hts''⟩ := ih.items hitems hts'
    exact ih.suffixes h hts'' (.call (he.upTo hstop) he hargs)
  unfold readSuffixes at h
  split at h
  · rename_i hdot
    obtain ⟨-, hinside⟩ := hts.token hdot
    split at h
    · rename_i hname
      exact hproperty hinside hname h
    · exact absurd h (by simp)
  · rename_i hdot
    obtain ⟨-, hinside⟩ := hts.token hdot
    split at h
    · rename_i hname
      exact hproperty hinside hname h
    · rename_i hopen
      exact hcall (hinside.token hopen).2 h
    · rename_i hopen
      exact ih.index h (hinside.token hopen).2 he
    · exact absurd h (by simp)
  · rename_i hopen
    exact hcall (hts.token hopen).2 h
  · rename_i hopen
    exact ih.index h (hts.token hopen).2 he
  · -- a template with a tag
    rename_i s inside hopen
    obtain ⟨ho, hinside⟩ := hts.token hopen
    obtain ⟨⟨holes, stop, ts'⟩, hholes, h⟩ := Option.bind_eq_some_iff.mp h
    obtain ⟨-, hstop, hts'⟩ := ih.holes hholes hinside
    have hfirst : source.Boundary (min e.span.start s.start) := by
      rcases Nat.le_total e.span.start s.start with hle | hle
      · rw [Nat.min_eq_left hle]
        exact he.span.1
      · rw [Nat.min_eq_right hle]
        exact ho.ends.1
    exact ih.suffixes h hts' (.other ⟨hfirst, hstop⟩)
  · rename_i hmark
    split at h
    · obtain ⟨hm, hinside⟩ := hts.token hmark
      exact ih.suffixes h hinside (.wrapped (he.upTo hm.ends.2) he)
    · exact .stay h he hts
  · rename_i inside hless
    obtain ⟨-, hinside⟩ := hts.token hless
    have htypes {q : Nat} {ts' : Lexemes}
        (h : (if d = .typeScript then skipTypeList? fuel inside else none) = some (q, ts')) :
        AlignedLexemes source ts' := by
      split at h
      · exact (hinside.skips ((skipsTypes fuel).list h)).2
      · exact absurd h (by simp)
    split at h
    · rename_i hlist
      exact ih.suffixes h (htypes hlist) he
    · rename_i hlist
      exact ih.suffixes h (htypes hlist) he
    · exact .stay h he hts
  · exact .stay h he hts

/-! ## Items and holes -/

theorem aligned_items {delimiter : Delimiter} {items : List Expr}
    (h : readItems d (fuel + 1) delimiter ts = some (items, stop, rest))
    (hts : AlignedLexemes source ts) :
    ClosesAligned source (Expr.Aligned source) items stop rest := by
  unfold readItems at h
  split at h
  · rename_i hclose
    obtain ⟨hc, hrest⟩ := hts.token hclose
    split at h
    · simp only [Option.some.injEq, Prod.mk.injEq] at h
      obtain ⟨rfl, rfl, rfl⟩ := h
      exact .nil hc hrest
    · exact absurd h (by simp)
  · rename_i hcomma
    exact ih.items h (hts.token hcomma).2
  · rename_i hspread
    obtain ⟨hs, hinside⟩ := hts.token hspread
    obtain ⟨⟨item, ts₁⟩, hitem, h⟩ := Option.bind_eq_some_iff.mp h
    obtain ⟨hi, hts₁⟩ := ih.expr hitem hinside
    exact ih.moreItems h hts₁ (.other (hi.behind hs.ends.1))
  · obtain ⟨⟨item, ts₁⟩, hitem, h⟩ := Option.bind_eq_some_iff.mp h
    obtain ⟨hi, hts₁⟩ := ih.expr hitem hts
    exact ih.moreItems h hts₁ hi

theorem aligned_moreItems {delimiter : Delimiter} {first : Expr} {items : List Expr}
    (h : readMoreItems d (fuel + 1) delimiter first ts = some (items, stop, rest))
    (hts : AlignedLexemes source ts) (hfirst : first.Aligned source) :
    ClosesAligned source (Expr.Aligned source) items stop rest := by
  unfold readMoreItems at h
  split at h
  · rename_i hcomma
    obtain ⟨⟨items', stop', rest'⟩, hmore, h⟩ := Option.bind_eq_some_iff.mp h
    simp only [Option.pure_def, Option.some.injEq, Prod.mk.injEq] at h
    obtain ⟨rfl, rfl, rfl⟩ := h
    exact .cons hfirst (ih.items hmore (hts.token hcomma).2)
  · rename_i hclose
    obtain ⟨hc, hrest⟩ := hts.token hclose
    split at h
    · simp only [Option.some.injEq, Prod.mk.injEq] at h
      obtain ⟨rfl, rfl, rfl⟩ := h
      exact .cons hfirst (.nil hc hrest)
    · exact absurd h (by simp)
  · exact absurd h (by simp)

theorem aligned_holes {holes : List (Span × Expr)}
    (h : readHoles d (fuel + 1) ts = some (holes, stop, rest)) (hts : AlignedLexemes source ts) :
    ClosesAligned source (AlignedHole source) holes stop rest := by
  unfold readHoles at h
  split at h
  · simp only [Option.some.injEq, Prod.mk.injEq] at h
    obtain ⟨rfl, rfl, rfl⟩ := h
    exact .nil (hts _ List.mem_cons_self) (hts.of_suffix (List.suffix_cons _ _))
  · obtain ⟨⟨e, ts₁⟩, he, h⟩ := Option.bind_eq_some_iff.mp h
    obtain ⟨hexpr, hts₁⟩ := ih.sequence he (hts.of_suffix (List.suffix_cons _ _))
    dsimp only at h
    split at h
    · rename_i hclose
      obtain ⟨⟨holes', stop', rest'⟩, hmore, h⟩ := Option.bind_eq_some_iff.mp h
      simp only [Option.pure_def, Option.some.injEq, Prod.mk.injEq] at h
      obtain ⟨rfl, rfl, rfl⟩ := h
      exact .cons hexpr (ih.holes hmore (hts₁.token hclose).2)
    · exact absurd h (by simp)
  · exact absurd h (by simp)

/-! ## Functions, words and operands -/

theorem aligned_arrowBody (h : readArrowBody d (fuel + 1) start ts = some (e, rest))
    (hts : AlignedLexemes source ts) (hstart : source.Boundary start) :
    ReadsAligned source e rest := by
  unfold readArrowBody at h
  split at h
  · rename_i hbody
    obtain ⟨hstop, hts₁⟩ := hts.skips (skips_skipGroup? hbody)
    exact .stay h (.other ⟨hstart, hstop⟩) hts₁
  · obtain ⟨⟨body, ts₁⟩, hbody, h⟩ := Option.bind_eq_some_iff.mp h
    obtain ⟨hb, hts₁⟩ := ih.expr hbody hts
    exact .stay h (.other (hb.behind hstart)) hts₁

theorem aligned_wordOperand {w : String} {s : Span}
    (h : readWordOperand d (fuel + 1) w s ts = some (e, rest)) (hts : AlignedLexemes source ts)
    (hs : s.Aligned source) : ReadsAligned source e rest := by
  have hname : (Expr.other s).Aligned source := .other hs
  unfold readWordOperand at h
  split at h
  · obtain ⟨⟨stop, ts₁⟩, hfunction, h⟩ := Option.bind_eq_some_iff.mp h
    have hstar := hts.optionalPunct "*"
    have hbody : source.Boundary stop ∧ AlignedLexemes source ts₁ := by
      split at hfunction
      · rename_i hword
        exact (hstar.token hword).2.skips (skips_function hfunction)
      · exact hstar.skips (skips_function hfunction)
    exact .stay h (.other ⟨hs.1, hbody.1⟩) hbody.2
  split at h
  · obtain ⟨⟨stop, ts₁⟩, hclass, h⟩ := Option.bind_eq_some_iff.mp h
    obtain ⟨hstop, hts₁⟩ := hts.skips (skips_class _ hclass)
    exact .stay h (.other ⟨hs.1, hstop⟩) hts₁
  split at h
  · exact ih.construct h hts hs.1
  split at h
  · exact absurd h (by simp)
  split at h
  · exact absurd h (by simp)
  split at h
  · rename_i harrow
    exact ih.arrowBody h (hts.punct harrow) hs.1
  split at h
  · split at h
    · rename_i hfunction
      obtain ⟨⟨e', rest'⟩, hoperand, h⟩ := Option.bind_eq_some_iff.mp h
      obtain ⟨he, hrest⟩ := ih.wordOperand hoperand (hts.token hfunction).2 hs
      exact .stay h he hrest
    · rename_i hword
      split at h
      · rename_i harrow
        exact ih.arrowBody h ((hts.token hword).2.punct harrow) hs.1
      · exact .stay h hname hts
    · split at h
      · rename_i harrow
        obtain ⟨p, htypes⟩ := skips_optionalTypeParameters d 0 ts
        exact ih.arrowBody h ((hts.skips htypes).2.arrow harrow) hs.1
      · exact .stay h hname hts
  · exact .stay h hname hts

theorem aligned_construct (h : readNew d (fuel + 1) start ts = some (e, rest))
    (hts : AlignedLexemes source ts) (hstart : source.Boundary start) :
    ReadsAligned source e rest := by
  unfold readNew at h
  split at h
  · rename_i hdot
    split at h
    · rename_i htarget
      obtain ⟨ht, hrest⟩ := (hts.token hdot).2.token htarget
      exact .stay h (.other ⟨hstart, ht.ends.2⟩) hrest
    · exact absurd h (by simp)
  · obtain ⟨⟨callee, ts₁⟩, hcallee, h⟩ := Option.bind_eq_some_iff.mp h
    obtain ⟨hc, hts₁⟩ := ih.primary hcallee hts
    exact ih.constructSuffixes h hts₁ (hc.behind hstart)

theorem aligned_constructSuffixes (h : readNewSuffixes d (fuel + 1) start stop ts = some (e, rest))
    (hts : AlignedLexemes source ts) (hends : Span.Aligned source ⟨start, stop⟩) :
    ReadsAligned source e rest := by
  unfold readNewSuffixes at h
  split at h
  · rename_i hdot
    split at h
    · rename_i hname
      obtain ⟨hn, hts₁⟩ := (hts.token hdot).2.token hname
      exact ih.constructSuffixes h hts₁ ⟨hends.1, hn.ends.2⟩
    · exact absurd h (by simp)
  · rename_i hopen
    obtain ⟨⟨stop', ts₁⟩, hclose, h⟩ := Option.bind_eq_some_iff.mp h
    obtain ⟨hstop, hts₁⟩ := (hts.token hopen).2.closeAll hclose
    dsimp only at h
    exact ih.constructSuffixes h hts₁ ⟨hends.1, hstop⟩
  · rename_i hless
    split at h
    · rename_i hlist
      split at hlist
      · obtain ⟨hstop, hts₁⟩ := (hts.token hless).2.skips ((skipsTypes fuel).list hlist)
        exact ih.constructSuffixes h hts₁ ⟨hends.1, hstop⟩
      · exact absurd hlist (by simp)
    · exact .stay h (.other hends) hts
  · rename_i hopen
    obtain ⟨⟨args, stop', ts₁⟩, hargs, h⟩ := Option.bind_eq_some_iff.mp h
    obtain ⟨-, hstop, hts₁⟩ := ih.items hargs (hts.token hopen).2
    exact .stay h (.other ⟨hends.1, hstop⟩) hts₁
  · exact .stay h (.other hends) hts

theorem aligned_primary (h : readPrimary d (fuel + 1) ts = some (e, rest))
    (hts : AlignedLexemes source ts) : ReadsAligned source e rest := by
  unfold readPrimary at h
  split at h
  · rename_i escaped s inside htoken
    obtain ⟨ht, hinside⟩ := hts.token htoken
    exact .stay h (.string ht.ends (ht.quotes escaped rfl)) hinside
  · rename_i htoken
    obtain ⟨ht, hinside⟩ := hts.token htoken
    exact .stay h (.other ht.ends) hinside
  · rename_i htoken
    obtain ⟨ht, hinside⟩ := hts.token htoken
    exact ih.wordOperand h hinside ht.ends
  · rename_i s inside hopen
    obtain ⟨ho, hinside⟩ := hts.token hopen
    split at h
    · rename_i harrow
      have hfrom : AlignedLexemes source (⟨.opening .paren, s⟩ :: inside) :=
        List.forall_mem_cons.mpr ⟨ho, hinside⟩
      exact ih.arrowBody h (hfrom.arrow harrow) ho.ends.1
    · obtain ⟨⟨inner, ts₁⟩, hinner, h⟩ := Option.bind_eq_some_iff.mp h
      obtain ⟨hi, hts₁⟩ := ih.sequence hinner hinside
      dsimp only at h
      split at h
      · rename_i hclose
        obtain ⟨hc, hts₂⟩ := hts₁.token hclose
        exact .stay h (.paren ⟨ho.ends.1, hc.ends.2⟩ hi) hts₂
      · exact absurd h (by simp)
  · rename_i hopen
    obtain ⟨ho, hinside⟩ := hts.token hopen
    obtain ⟨⟨items, stop, ts₁⟩, hitems, h⟩ := Option.bind_eq_some_iff.mp h
    obtain ⟨hi, hstop, hts₁⟩ := ih.items hitems hinside
    exact .stay h (.array ⟨ho.ends.1, hstop⟩ hi) hts₁
  · rename_i hopen
    obtain ⟨ho, hinside⟩ := hts.token hopen
    obtain ⟨⟨ms, stop, ts₁⟩, hms, h⟩ := Option.bind_eq_some_iff.mp h
    obtain ⟨hm, hstop, hts₁⟩ := ih.members hms hinside
    refine .stay h (.object ⟨ho.ends.1, hstop⟩ ?_ ?_) hts₁
    · intro p k v hpair
      exact ⟨(hm _ hpair p k v rfl).1, (hm _ hpair p k v rfl).2.1⟩
    · intro p k v hpair
      exact (hm _ hpair p k v rfl).2.2
  · rename_i hopen
    obtain ⟨ho, hinside⟩ := hts.token hopen
    obtain ⟨⟨holes, stop, ts₁⟩, hholes, h⟩ := Option.bind_eq_some_iff.mp h
    obtain ⟨hexprs, hstop, hts₁⟩ := ih.holes hholes hinside
    exact .stay h (.template ⟨ho.ends.1, hstop⟩ hexprs) hts₁
  · rename_i hopen
    obtain ⟨ho, hinside⟩ := hts.token hopen
    obtain ⟨⟨stop, ts₁⟩, hclose, h⟩ := Option.bind_eq_some_iff.mp h
    obtain ⟨hstop, hts₁⟩ := hinside.closeAll hclose
    exact .stay h (.other ⟨ho.ends.1, hstop⟩) hts₁
  · rename_i hless
    obtain ⟨hl, hinside⟩ := hts.token hless
    split at h
    · obtain ⟨⟨p, ts₁⟩, hparams, h⟩ := Option.bind_eq_some_iff.mp h
      obtain ⟨ts₂, harrow, h⟩ := Option.bind_eq_some_iff.mp h
      have hts₁ := (hinside.skips (skips_typeParameters _ hparams)).2
      exact ih.arrowBody h (hts₁.arrow harrow) hl.ends.1
    · exact absurd h (by simp)
  · exact absurd h (by simp)

/-! ## Members -/

variable {m : Member} {k : Key}

theorem aligned_members {ms : List Member}
    (h : readMembers d (fuel + 1) ts = some (ms, stop, rest)) (hts : AlignedLexemes source ts) :
    ClosesAligned source (Member.Aligned source) ms stop rest := by
  unfold readMembers at h
  split at h
  · obtain ⟨⟨ms', stop', rest'⟩, hmore, h⟩ := Option.bind_eq_some_iff.mp h
    simp only [Option.pure_def, Option.some.injEq, Prod.mk.injEq] at h
    obtain ⟨rfl, rfl, rfl⟩ := h
    exact .cons (Member.aligned_other _ _) (ih.members hmore (hts.of_suffix (List.suffix_cons _ _)))
  · simp only [Option.some.injEq, Prod.mk.injEq] at h
    obtain ⟨rfl, rfl, rfl⟩ := h
    exact .nil (hts _ List.mem_cons_self) (hts.of_suffix (List.suffix_cons _ _))
  · exact ih.members h (hts.of_suffix (List.suffix_cons _ _))
  · obtain ⟨⟨e, ts₁⟩, he, h⟩ := Option.bind_eq_some_iff.mp h
    obtain ⟨-, hts₁⟩ := ih.expr he (hts.of_suffix (List.suffix_cons _ _))
    exact ih.moreMembers h hts₁ (Member.aligned_other _ _)
  · obtain ⟨⟨m, ts₁⟩, hm, h⟩ := Option.bind_eq_some_iff.mp h
    obtain ⟨hmember, hts₁⟩ := ih.member hm hts
    exact ih.moreMembers h hts₁ hmember

theorem aligned_moreMembers {first : Member} {ms : List Member}
    (h : readMoreMembers d (fuel + 1) first ts = some (ms, stop, rest))
    (hts : AlignedLexemes source ts) (hfirst : first.Aligned source) :
    ClosesAligned source (Member.Aligned source) ms stop rest := by
  have hmore (h : ((readMembers d fuel ts).bind fun r => some (first :: r.1, r.2.1, r.2.2)) =
      some (ms, stop, rest)) : ClosesAligned source (Member.Aligned source) ms stop rest := by
    obtain ⟨⟨ms', stop', rest'⟩, hmore, h⟩ := Option.bind_eq_some_iff.mp h
    simp only [Option.some.injEq, Prod.mk.injEq] at h
    obtain ⟨rfl, rfl, rfl⟩ := h
    exact .cons hfirst (ih.members hmore hts)
  unfold readMoreMembers at h
  split at h
  · exact hmore h
  · exact hmore h
  · exact absurd h (by simp)

theorem aligned_member (h : readMember d (fuel + 1) ts = some (m, rest))
    (hts : AlignedLexemes source ts) : ReadsAlignedMember source m rest := by
  unfold readMember at h
  split at h
  · exact ih.method h (hts.of_suffix (List.suffix_cons _ _))
  · rename_i w s inside
    have hinside : AlignedLexemes source inside := hts.of_suffix (List.suffix_cons _ _)
    have hmethod (h : (if methodWords.contains w then readMethod d fuel s.start inside else none) =
        some (m, rest)) : ReadsAlignedMember source m rest := by
      split at h
      · exact ih.method h hinside
      · exact absurd h (by simp)
    have hshort (h : some (.other s, inside) = some (m, rest)) :
        ReadsAlignedMember source m rest := by
      obtain ⟨rfl, rfl⟩ := Prod.mk.inj (Option.some.inj h)
      exact ⟨Member.aligned_other _ _, hinside⟩
    split at h
    · exact hmethod h
    · exact hmethod h
    · exact hmethod h
    · exact hmethod h
    · exact hmethod h
    · exact hshort h
    · exact hshort h
    · exact ih.keyed h hinside (Key.aligned_name (hts _ List.mem_cons_self).ends)
  · obtain ⟨⟨k, ts₁⟩, hk, h⟩ := Option.bind_eq_some_iff.mp h
    obtain ⟨hkey, hts₁⟩ := ih.key hk hts
    exact ih.keyed h hts₁ hkey

theorem aligned_key (h : readKey d (fuel + 1) ts = some (k, rest))
    (hts : AlignedLexemes source ts) : k.Aligned source ∧ AlignedLexemes source rest := by
  unfold readKey at h
  split at h
  · rename_i htoken
    obtain ⟨ht, hrest⟩ := hts.token htoken
    obtain ⟨rfl, rfl⟩ := Prod.mk.inj (Option.some.inj h)
    exact ⟨Key.aligned_name ht.ends, hrest⟩
  · rename_i escaped s inside htoken
    obtain ⟨ht, hrest⟩ := hts.token htoken
    obtain ⟨rfl, rfl⟩ := Prod.mk.inj (Option.some.inj h)
    refine ⟨⟨ht.ends, fun s' escaped' heq => ?_⟩, hrest⟩
    obtain ⟨rfl, rfl⟩ := Key.string.inj heq
    exact ht.quotes escaped rfl
  · rename_i htoken
    obtain ⟨ht, hrest⟩ := hts.token htoken
    obtain ⟨rfl, rfl⟩ := Prod.mk.inj (Option.some.inj h)
    exact ⟨Key.aligned_other ht.ends, hrest⟩
  · rename_i hopen
    obtain ⟨ho, hinside⟩ := hts.token hopen
    obtain ⟨⟨e, ts₁⟩, he, h⟩ := Option.bind_eq_some_iff.mp h
    obtain ⟨-, hts₁⟩ := ih.sequence he hinside
    dsimp only at h
    split at h
    · rename_i hclose
      obtain ⟨hc, hts₂⟩ := hts₁.token hclose
      obtain ⟨rfl, rfl⟩ := Prod.mk.inj (Option.some.inj h)
      exact ⟨Key.aligned_other ⟨ho.ends.1, hc.ends.2⟩, hts₂⟩
    · exact absurd h (by simp)
  · exact absurd h (by simp)

theorem aligned_keyed (h : readKeyed d (fuel + 1) k ts = some (m, rest))
    (hts : AlignedLexemes source ts) (hk : k.Aligned source) :
    ReadsAlignedMember source m rest := by
  unfold readKeyed at h
  split at h
  · rename_i hcolon
    obtain ⟨⟨value, ts₁⟩, hvalue, h⟩ := Option.bind_eq_some_iff.mp h
    obtain ⟨rfl, rfl⟩ := Prod.mk.inj (Option.some.inj h)
    obtain ⟨hv, hts₁⟩ := ih.expr hvalue (hts.punct hcolon)
    refine ⟨fun p k' v heq => ?_, hts₁⟩
    obtain ⟨rfl, rfl, rfl⟩ := Member.pair.inj heq
    exact ⟨hv.behind hk.ends.1, hk, hv⟩
  · obtain ⟨⟨stop, ts₁⟩, hfunction, h⟩ := Option.bind_eq_some_iff.mp h
    obtain ⟨rfl, rfl⟩ := Prod.mk.inj (Option.some.inj h)
    exact ⟨Member.aligned_other _ _, (hts.skips (skips_function hfunction)).2⟩

theorem aligned_method (h : readMethod d (fuel + 1) start ts = some (m, rest))
    (hts : AlignedLexemes source ts) : ReadsAlignedMember source m rest := by
  unfold readMethod at h
  split at h
  · rename_i hstar
    exact ih.method h (hts.punct hstar)
  · obtain ⟨⟨k, ts₁⟩, hk, h⟩ := Option.bind_eq_some_iff.mp h
    obtain ⟨-, hts₁⟩ := ih.key hk hts
    dsimp only at h
    split at h
    · rename_i hfunction
      obtain ⟨rfl, rfl⟩ := Prod.mk.inj (Option.some.inj h)
      exact ⟨Member.aligned_other _ _, (hts₁.skips (skips_function hfunction)).2⟩
    · split at h
      · exact ih.method h hts₁
      · exact absurd h (by simp)

end

/-! ## All readers -/

theorem readersAligned_zero (source : Text) (d : Dialect) : ReadersAligned source d 0 where
  expr := fun h => absurd h (by simp [readExpr])
  sequence := fun h => absurd h (by simp [readSequence])
  binary := fun h => absurd h (by simp [readBinary])
  operators := fun h => absurd h (by simp [readOperators])
  unary := fun h => absurd h (by simp [readUnary])
  suffixed := fun h => absurd h (by simp [readPostfix])
  suffixes := fun h => absurd h (by simp [readSuffixes])
  index := fun h => absurd h (by simp [readIndex])
  items := fun h => absurd h (by simp [readItems])
  moreItems := fun h => absurd h (by simp [readMoreItems])
  holes := fun h => absurd h (by simp [readHoles])
  arrowBody := fun h => absurd h (by simp [readArrowBody])
  wordOperand := fun h => absurd h (by simp [readWordOperand])
  construct := fun h => absurd h (by simp [readNew])
  constructSuffixes := fun h => absurd h (by simp [readNewSuffixes])
  primary := fun h => absurd h (by simp [readPrimary])
  members := fun h => absurd h (by simp [readMembers])
  moreMembers := fun h => absurd h (by simp [readMoreMembers])
  member := fun h => absurd h (by simp [readMember])
  key := fun h => absurd h (by simp [readKey])
  keyed := fun h => absurd h (by simp [readKeyed])
  method := fun h => absurd h (by simp [readMethod])

/-- **Every reader takes its offsets from the lexemes.** -/
theorem readersAligned (source : Text) (d : Dialect) (fuel : Nat) :
    ReadersAligned source d fuel := by
  induction fuel with
  | zero => exact readersAligned_zero source d
  | succ fuel ih =>
      exact {
        expr := aligned_expr ih
        sequence := aligned_sequence ih
        binary := aligned_binary ih
        operators := aligned_operators ih
        unary := aligned_unary ih
        suffixed := aligned_suffixed ih
        suffixes := aligned_suffixes ih
        index := aligned_index ih
        items := aligned_items ih
        moreItems := aligned_moreItems ih
        holes := aligned_holes ih
        arrowBody := aligned_arrowBody ih
        wordOperand := aligned_wordOperand ih
        construct := aligned_construct ih
        constructSuffixes := aligned_constructSuffixes ih
        primary := aligned_primary ih
        members := aligned_members ih
        moreMembers := aligned_moreMembers ih
        member := aligned_member ih
        key := aligned_key ih
        keyed := aligned_keyed ih
        method := aligned_method ih }

/-- The tree of a script is the expression at its beginning. -/
theorem sequence_of_readProgram {d : Dialect} {ts : Lexemes} {e : Expr}
    (h : readProgram d ts = some e) : ∃ rest, readSequence d (fuelFor ts) ts = some (e, rest) := by
  unfold readProgram at h
  obtain ⟨⟨e', rest⟩, hread, h⟩ := Option.bind_eq_some_iff.mp h
  dsimp only at h
  split at h
  · obtain rfl := Option.some.inj h
    exact ⟨rest, hread⟩
  · exact absurd h (by simp)

/-- **The tree of a script is aligned.** -/
theorem aligned_readProgram {d : Dialect} {source : Text} {e : Expr}
    (h : readProgram d (lex d source) = some e) : e.Aligned source := by
  obtain ⟨rest, hread⟩ := sequence_of_readProgram h
  exact ((readersAligned source d _).sequence hread (aligned_lex d source)).expr

end ClassSort.Script
