import ClassSort.Proofs.LexemeStack
import ClassSort.Script.TypeReader

/-!
# Passing over nested constructs

Whatever a reader does with some lexemes, it passes over them in one way: single lexemes
are skipped, and an opening takes everything up to its own closing along. `Passes` is
that relation. It also keeps the ranges of the outermost elements on the way, because
elements are where further attributes are found.

Two facts make it useful. The closing that ends a construct is **unique**, whichever
reader looks for it. And an attribute that is passed over lies **inside one of the
elements that were kept**, together with everything up to the end of its own element.
-/

namespace ClassSort.Script

/-- Whether a lexeme opens or closes something. -/
def Kind.nests : Kind → Bool
  | .opening _ | .closing _ => true
  | _ => false

theorem Kind.not_nests {k : Kind} (hopen : ∀ d, k = .opening d → False)
    (hclose : ∀ d, k = .closing d → False) : k.nests = false := by
  cases k with
  | opening d => exact absurd rfl (hopen d)
  | closing d => exact absurd rfl (hclose d)
  | _ => rfl

theorem Moves.eq_of_not_nests {σ σ' : List Delimiter} {k : Kind} (h : Moves σ (some k) σ')
    (hk : k.nests = false) : σ' = σ := by
  unfold Moves at h
  split at h
  · rename_i hkind
    injection hkind with hkind
    exact absurd hk (by simp [hkind, Kind.nests])
  · rename_i hkind
    injection hkind with hkind
    exact absurd hk (by simp [hkind, Kind.nests])
  · exact h.2
  · exact h

/-- The elements in a construct: itself, if it is one, and else those inside. -/
def enclosed (d : Delimiter) (o c : Lexeme) (inner : List Span) : List Span :=
  if d = .element then [⟨o.span.start, c.span.stop⟩] else inner

/-- From `ts`, which stand behind `pos`, to `rest`, behind `stop`, with the outermost
elements in between. -/
inductive Passes : Nat → Lexemes → List Span → Nat → Lexemes → Prop
  | refl (pos : Nat) (ts : Lexemes) : Passes pos ts [] pos ts
  | skip {pos stop : Nat} {t : Lexeme} {ts rest : Lexemes} {els : List Span}
      (ht : t.kind.nests = false) (h : Passes t.span.stop ts els stop rest) :
      Passes pos (t :: ts) els stop rest
  | group {pos mid stop : Nat} {d : Delimiter} {o c : Lexeme} {ts ts' rest : Lexemes}
      {inner els : List Span} (ho : o.kind = .opening d)
      (hinner : Passes o.span.stop ts inner mid (c :: ts')) (hc : c.kind = .closing d)
      (h : Passes c.span.stop ts' els stop rest) :
      Passes pos (o :: ts) (enclosed d o c inner ++ els) stop rest

/-- An attribute behind another lexeme. -/
theorem suffix_of_not_attribute {name : String} {s : Span} {t : Lexeme} {after ts : Lexemes}
    (h : ⟨.attribute name, s⟩ :: after <:+ t :: ts) (ht : ∀ n, t.kind ≠ .attribute n) :
    ⟨.attribute name, s⟩ :: after <:+ ts := by
  rcases List.suffix_cons_iff.mp h with heq | h
  · injection heq with heq
    exact absurd (heq ▸ rfl) (ht name)
  · exact h

namespace Passes

variable {pos mid stop : Nat} {ts rest : Lexemes} {els : List Span}

theorem trans {els' : List Span} {between : Lexemes} (h : Passes pos ts els mid between)
    (h' : Passes mid between els' stop rest) : Passes pos ts (els ++ els') stop rest := by
  induction h with
  | refl pos ts => exact h'
  | skip ht _ ih => exact .skip ht (ih h')
  | group ho hinner hc _ _ ih =>
      rw [List.append_assoc]
      exact .group ho hinner hc (ih h')

/-- Without any element in the second part. -/
theorem trans_skip {between : Lexemes} (h : Passes pos ts els mid between)
    (h' : Passes mid between [] stop rest) : Passes pos ts els stop rest := by
  have hboth := h.trans h'
  rwa [List.append_nil] at hboth

/-- A single lexeme. -/
theorem single {t : Lexeme} (ht : t.kind.nests = false) : Passes pos (t :: ts) [] t.span.stop ts :=
  .skip ht (.refl _ _)

theorem suffix (h : Passes pos ts els stop rest) : rest <:+ ts := by
  induction h with
  | refl pos ts => exact List.suffix_refl ts
  | skip _ _ ih => exact ih.trans (List.suffix_cons _ _)
  | group _ _ _ _ ihinner ih =>
      exact ((ih.trans (List.suffix_cons _ _)).trans ihinner).trans (List.suffix_cons _ _)

/-- The elements on the way lie in the part that is passed. -/
theorem bounds (h : Passes pos ts els stop rest) (hts : Ordered pos ts) :
    pos ≤ stop ∧ Ordered stop rest ∧ ∀ e ∈ els, pos ≤ e.start ∧ e.stop ≤ stop := by
  induction h with
  | refl pos ts => exact ⟨Nat.le_refl pos, hts, by simp⟩
  | skip _ _ ih =>
      obtain ⟨hstart, hforward, hrest⟩ := hts
      obtain ⟨hle, hordered, hels⟩ := ih hrest
      refine ⟨by omega, hordered, fun e he => ?_⟩
      have := hels e he
      omega
  | @group pos mid stop d o c ts ts' rest inner els ho hinner hc _ ihinner ih =>
      obtain ⟨hstart, hforward, hrest⟩ := hts
      obtain ⟨hle, ⟨hcstart, hcforward, hcrest⟩, hinside⟩ := ihinner hrest
      obtain ⟨hle', hordered, hels⟩ := ih hcrest
      refine ⟨by omega, hordered, fun e he => ?_⟩
      rcases List.mem_append.mp he with he | he
      · unfold enclosed at he
        split at he
        · rw [List.mem_singleton] at he
          subst he
          dsimp only
          omega
        · have := hinside e he
          omega
      · have := hels e he
        omega

/-- A position is the end of a lexeme, or the first one. -/
theorem stop_le (h : Passes pos ts els stop rest) {n : Nat} (hpos : pos ≤ n)
    (hts : ∀ t ∈ ts, t.span.stop ≤ n) : stop ≤ n := by
  induction h with
  | refl pos ts => exact hpos
  | skip _ _ ih => exact ih (hts _ (by simp)) fun t ht => hts t (by simp [ht])
  | @group pos mid stop d o c ts ts' rest inner els ho hinner hc _ _ ih =>
      have hmem : ∀ t ∈ c :: ts', t ∈ ts := fun t ht => hinner.suffix.mem ht
      refine ih (hts c ?_) fun t ht => hts t ?_
      · exact List.mem_cons_of_mem _ (hmem c (by simp))
      · exact List.mem_cons_of_mem _ (hmem t (by simp [ht]))

/-- What is passed leaves the stack as it was. -/
theorem tracked (h : Passes pos ts els stop rest) {σ : List Delimiter} (hts : Tracked σ ts) :
    Tracked σ rest := by
  induction h generalizing σ with
  | refl pos ts => exact hts
  | skip ht _ ih =>
      obtain ⟨σ', hmoves, hrest⟩ := hts
      rw [hmoves.eq_of_not_nests ht] at hrest
      exact ih hrest
  | group ho _ hc _ ihinner ih =>
      exact ih ((ihinner (hts.of_opening ho)).of_closing hc)

/-- **A construct has one end.** -/
theorem closing_unique (h : Passes pos ts els stop rest) {c : Lexeme} {after : Lexemes}
    {d : Delimiter} (hrest : rest = c :: after) (hc : c.kind = .closing d) :
    ∀ {pos' stop' : Nat} {els' : List Span} {c' : Lexeme} {after' : Lexemes} {d' : Delimiter},
      Passes pos' ts els' stop' (c' :: after') → c'.kind = .closing d' →
      c' = c ∧ after' = after := by
  induction h generalizing c after d with
  | refl pos ts =>
      intro pos' stop' els' c' after' d' h' hc'
      subst hrest
      cases h' with
      | refl => exact ⟨rfl, rfl⟩
      | skip ht => exact absurd ht (by simp [hc, Kind.nests])
      | group ho => exact absurd (ho.symm.trans hc) (by simp)
  | skip ht _ ih =>
      intro pos' stop' els' c' after' d' h' hc'
      cases h' with
      | refl => exact absurd ht (by simp [hc', Kind.nests])
      | skip _ hrest' => exact ih hrest hc hrest' hc'
      | group ho => exact absurd ht (by simp [ho, Kind.nests])
  | group ho _ hclose _ ihinner ih =>
      intro pos' stop' els' c' after' d' h' hc'
      cases h' with
      | refl => exact absurd (ho.symm.trans hc') (by simp)
      | skip ht => exact absurd ht (by simp [ho, Kind.nests])
      | group _ hinner' hclose' hrest' =>
          obtain ⟨rfl, rfl⟩ := ihinner rfl hclose hinner' hclose'
          exact ih hrest hc hrest' hc'

/-- No other way from the same place leads beyond the end of a construct. -/
theorem stop_le_closing {els' : List Span} {stop' : Nat} {rest' : Lexemes}
    (h : Passes pos ts els' stop' rest') {c : Lexeme} {after : Lexemes} {d : Delimiter} :
    ∀ {els : List Span} {stop : Nat}, Passes pos ts els stop (c :: after) →
      c.kind = .closing d → Ordered pos ts → stop' ≤ stop := by
  induction h with
  | refl pos ts =>
      intro els stop hclose hc hts
      exact (hclose.bounds hts).1
  | skip ht _ ih =>
      intro els stop hclose hc hts
      cases hclose with
      | refl => exact absurd ht (by simp [hc, Kind.nests])
      | skip _ hrest => exact ih hrest hc hts.2.2
      | group ho => exact absurd ht (by simp [ho, Kind.nests])
  | group ho hinner hc' _ _ ih =>
      intro els stop hclose hc hts
      cases hclose with
      | refl => exact absurd (ho.symm.trans hc) (by simp)
      | skip ht => exact absurd ht (by simp [ho, Kind.nests])
      | group _ hinner' hc'' hrest =>
          -- the end of the group is the same for both
          obtain ⟨rfl, rfl⟩ := hinner.closing_unique rfl hc' hinner' hc''
          exact ih hrest hc (hinner.bounds hts.2.2).2.1.2.2

/-- A lexeme behind an opening is inside the construct or behind its closing. -/
theorem inside_or_behind {t c : Lexeme} {after ts' : Lexemes} (h : Passes pos ts els stop (c :: ts'))
    (ht : t :: after <:+ ts) (hne : t ≠ c) :
    (c :: ts').length ≤ after.length ∨ t :: after <:+ ts' := by
  by_cases hlen : (c :: ts').length ≤ after.length
  · exact .inl hlen
  · right
    have hsuffix : t :: after <:+ c :: ts' := by
      refine List.suffix_of_suffix_length_le ht h.suffix ?_
      simp only [List.length_cons] at hlen ⊢
      omega
    rcases List.suffix_cons_iff.mp hsuffix with heq | hsuffix
    · injection heq with heq
      exact absurd heq hne
    · exact hsuffix

/-- The end of the element that an attribute stands in. -/
def EndsElement (s : Span) (after : Lexemes) (n : Nat) : Prop :=
  ∃ els stop c rest, Passes s.stop after els stop (c :: rest) ∧ c.kind = .closing .element ∧
    c.span.stop ≤ n

/-- Inside any construct, the element of an attribute ends before the construct does. -/
theorem endsElement_of_mem (h : Passes pos ts els stop rest) {c : Lexeme} {ts' : Lexemes}
    (hrest : rest = c :: ts') {d : Delimiter} (hc : c.kind = .closing d) (hordered : Ordered pos ts)
    {σ : List Delimiter} (hts : Tracked (d :: σ) ts) {name : String} {s : Span} {after : Lexemes}
    (hmem : ⟨.attribute name, s⟩ :: after <:+ ts) (hlen : rest.length ≤ after.length) :
    EndsElement s after c.span.stop := by
  induction h generalizing c ts' d σ with
  | refl pos ts =>
      have := hmem.length_le
      simp only [List.length_cons] at this
      omega
  | skip ht hpass ih =>
      obtain ⟨σ', hmoves, htracked⟩ := hts
      rcases List.suffix_cons_iff.mp hmem with heq | hmem
      · -- the attribute stands directly in the construct, which then is an element
        injection heq with ht' hafter
        subst ht' hafter hrest
        obtain ⟨hhead, -⟩ := hmoves
        injection hhead with hhead
        subst hhead
        exact ⟨_, _, c, ts', hpass, hc, Nat.le_refl _⟩
      · rw [hmoves.eq_of_not_nests ht] at htracked
        exact ih hrest hc hordered.2.2 htracked hmem hlen
  | @group pos mid stop d' o c' ts ts'' rest inner els ho hinner hc' hpass ihinner ih =>
      have htracked := hts.of_opening ho
      obtain ⟨-, hordered', hbetween⟩ := hinner.bounds hordered.2.2
      have hmem := suffix_of_not_attribute hmem (by simp [ho])
      have hne : (⟨.attribute name, s⟩ : Lexeme) ≠ c' := fun heq => absurd (heq ▸ hc') (by simp)
      rcases hinner.inside_or_behind hmem hne with hin | hbehind
      · obtain ⟨els', stop', e, rest', hpass', he, hle⟩ :=
          ihinner rfl hc' hordered.2.2 htracked hmem hin
        subst hrest
        obtain ⟨hstop, ⟨hstart, hforward, -⟩, -⟩ := hpass.bounds hordered'.2.2
        exact ⟨els', stop', e, rest', hpass', he, by omega⟩
      · have htracked' := (hinner.tracked htracked).of_closing hc'
        exact ih hrest hc hordered'.2.2 htracked' hbehind hlen

/-- **An attribute that is passed over lies in one of the elements on the way**, unless
the way leads through an element from the start. -/
theorem attribute_in_element (h : Passes pos ts els stop rest) (hordered : Ordered pos ts)
    {σ : List Delimiter} (hts : Tracked σ ts) (hσ : σ.head? ≠ some .element) {name : String}
    {s : Span} {after : Lexemes} (hmem : ⟨.attribute name, s⟩ :: after <:+ ts)
    (hlen : rest.length ≤ after.length) :
    ∃ e ∈ els, e.start ≤ s.start ∧ EndsElement s after e.stop := by
  induction h generalizing σ with
  | refl pos ts =>
      have := hmem.length_le
      simp only [List.length_cons] at this
      omega
  | skip ht hpass ih =>
      obtain ⟨σ', hmoves, htracked⟩ := hts
      rcases List.suffix_cons_iff.mp hmem with heq | hmem
      · injection heq with ht'
        subst ht'
        exact absurd hmoves.1 hσ
      · rw [hmoves.eq_of_not_nests ht] at htracked
        exact ih hordered.2.2 htracked hσ hmem hlen
  | @group pos mid stop d o c ts ts' rest inner els ho hinner hc hpass ihinner ih =>
      have htracked := hts.of_opening ho
      obtain ⟨hmid, hordered', -⟩ := hinner.bounds hordered.2.2
      have hmem := suffix_of_not_attribute hmem (by simp [ho])
      have hne : (⟨.attribute name, s⟩ : Lexeme) ≠ c := fun heq => absurd (heq ▸ hc) (by simp)
      rcases hinner.inside_or_behind hmem hne with hin | hbehind
      · by_cases hd : d = .element
        · subst hd
          have hstart := hordered.2.2.start_le (hmem.mem List.mem_cons_self)
          exact ⟨⟨o.span.start, c.span.stop⟩, by simp [enclosed],
            Nat.le_of_lt (Nat.lt_of_lt_of_le hordered.2.1 hstart),
            hinner.endsElement_of_mem rfl hc hordered.2.2 htracked hmem hin⟩
        · obtain ⟨e, he, hstart, hends⟩ :=
            ihinner hordered.2.2 htracked (by simpa using hd) hmem hin
          refine ⟨e, ?_, hstart, hends⟩
          simp [enclosed, hd, he]
      · have htracked' := (hinner.tracked htracked).of_closing hc
        obtain ⟨e, he, hstart, hends⟩ := ih hordered'.2.2 htracked' hσ hbehind hlen
        exact ⟨e, List.mem_append_right _ he, hstart, hends⟩

end Passes

/-! ## What passes -/

variable {pos stop : Nat} {ts rest : Lexemes}

theorem passes_skipComments (pos : Nat) (ts : Lexemes) :
    ∃ stop, Passes pos ts [] stop (skipComments ts) := by
  unfold skipComments
  induction ts generalizing pos with
  | nil => exact ⟨pos, .refl _ _⟩
  | cons t ts ih =>
      rw [List.dropWhile_cons]
      split
      · rename_i hcomment
        obtain ⟨stop, hpass⟩ := ih t.span.stop
        refine ⟨stop, .skip ?_ hpass⟩
        rw [beq_iff_eq.mp hcomment]
        rfl
      · exact ⟨pos, .refl _ _⟩

/-- A single lexeme and the comments in front of it. -/
theorem passes_token {t : Lexeme} (h : skipComments ts = t :: rest) (ht : t.kind.nests = false) :
    Passes pos ts [] t.span.stop rest := by
  obtain ⟨mid, hpass⟩ := passes_skipComments pos ts
  rw [h] at hpass
  exact hpass.trans (.single ht)

theorem passes_skipPunct? {text : String} (h : skipPunct? text ts = some (stop, rest)) :
    Passes pos ts [] stop rest := by
  unfold skipPunct? at h
  split at h
  · rename_i hts
    split at h
    · injection h with h
      injection h with hstop hrest
      subst hstop hrest
      exact passes_token hts rfl
    · exact absurd h (by simp)
  · exact absurd h (by simp)

/-- A mark that may be there or not. -/
theorem passes_optionalPunct (text : String) (pos : Nat) (ts : Lexemes) :
    ∃ stop, Passes pos ts [] stop (((skipPunct? text ts).map Prod.snd).getD ts) := by
  cases hpunct : skipPunct? text ts with
  | none => exact ⟨pos, .refl _ _⟩
  | some found => exact ⟨found.1, passes_skipPunct? hpunct⟩

/-- A construct that a reader has gone through. -/
theorem passes_group {d : Delimiter} (hd : d ≠ .element) {o c : Lexeme} {inside behind : Lexemes}
    {mid : Nat} {els : List Span} (hopen : skipComments ts = o :: inside) (ho : o.kind = .opening d)
    (h : Passes o.span.stop inside els mid behind) (hclose : skipComments behind = c :: rest)
    (hc : c.kind = .closing d) : Passes pos ts els c.span.stop rest := by
  obtain ⟨before, hcomments⟩ := passes_skipComments pos ts
  obtain ⟨last, hcomments'⟩ := passes_skipComments mid behind
  rw [hopen] at hcomments
  rw [hclose] at hcomments'
  have hgroup : Passes before (o :: inside) (enclosed d o c (els ++ []) ++ []) c.span.stop rest :=
    .group ho (h.trans hcomments') hc (.refl _ rest)
  simp only [enclosed, if_neg hd, List.append_nil] at hgroup
  exact hcomments.trans hgroup

/-- What `closeAll?` finds behind the innermost of some open constructs is that
construct's end; the others are closed from there on. -/
theorem passes_closeAll? (n : Nat) : ∀ {ts : Lexemes} {d : Delimiter} {ds : List Delimiter}
    (pos : Nat), ts.length ≤ n → closeAll? (d :: ds) ts = some (stop, rest) →
    ∃ els mid c ts', Passes pos ts els mid (c :: ts') ∧ c.kind = .closing d ∧
      (ds = [] ∧ c.span.stop = stop ∧ ts' = rest ∨ closeAll? ds ts' = some (stop, rest)) := by
  induction n with
  | zero =>
      intro ts d ds pos hlen h
      rw [List.length_eq_zero_iff.mp (Nat.le_zero.mp hlen)] at h
      exact absurd h (by simp [closeAll?])
  | succ n ih =>
      intro ts d ds pos hlen h
      cases ts with
      | nil => exact absurd h (by simp [closeAll?])
      | cons t ts =>
          have hts : ts.length ≤ n := Nat.le_of_succ_le_succ hlen
          unfold closeAll? at h
          split at h
          · -- an opening: first its own end, then that of the construct around it
            rename_i e ht
            obtain ⟨inner, mid, c, ts', hpass, hc, hcase⟩ := ih t.span.stop hts h
            rcases hcase with ⟨hds, -⟩ | hbehind
            · exact absurd hds (by simp)
            · have hshort : ts'.length ≤ n := by
                have := hpass.suffix.length_le
                simp only [List.length_cons] at this
                omega
              obtain ⟨els, mid', c', ts'', hpass', hc', hcase'⟩ := ih c.span.stop hshort hbehind
              exact ⟨_, mid', c', ts'', .group ht hpass hc hpass', hc', hcase'⟩
          · rename_i e ht
            split at h
            · exact absurd h (by simp)
            · rename_i he
              have hed : e = d := Decidable.not_not.mp he
              refine ⟨[], pos, t, ts, .refl _ _, hed ▸ ht, ?_⟩
              split at h
              · rename_i hds
                injection h with h
                injection h with hstop hrest
                exact .inl ⟨List.isEmpty_iff.mp hds, hstop, hrest⟩
              · exact .inr h
          · exact absurd h (by simp)
          · rename_i hopen hclose _
            obtain ⟨els, mid, c, ts', hpass, hc, hcase⟩ := ih t.span.stop hts h
            exact ⟨els, mid, c, ts', .skip (Kind.not_nests hopen hclose) hpass, hc, hcase⟩

/-! ## What is skipped without being read -/

/-- Some lexemes are passed over, whatever elements there are among them. -/
def Skips (pos : Nat) (ts : Lexemes) (stop : Nat) (rest : Lexemes) : Prop :=
  ∃ els, Passes pos ts els stop rest

theorem Skips.refl (pos : Nat) (ts : Lexemes) : Skips pos ts pos ts := ⟨[], .refl pos ts⟩

theorem Skips.trans {mid : Nat} {between : Lexemes} (h : Skips pos ts mid between)
    (h' : Skips mid between stop rest) : Skips pos ts stop rest := by
  obtain ⟨els, hpass⟩ := h
  obtain ⟨els', hpass'⟩ := h'
  exact ⟨els ++ els', hpass.trans hpass'⟩

theorem skips_token {t : Lexeme} (h : skipComments ts = t :: rest) (ht : t.kind.nests = false) :
    Skips pos ts t.span.stop rest := ⟨[], passes_token h ht⟩

theorem skips_punct {text : String} (h : skipPunct? text ts = some (stop, rest)) :
    Skips pos ts stop rest := ⟨[], passes_skipPunct? h⟩

/-- A construct that is skipped as a whole, behind its opening. -/
theorem skips_closeAll? {d : Delimiter} {o : Lexeme} (ho : o.kind = .opening d)
    (h : closeAll? [d] ts = some (stop, rest)) : Skips pos (o :: ts) stop rest := by
  obtain ⟨els, mid, c, ts', hpass, hc, hcase⟩ :=
    passes_closeAll? ts.length o.span.stop (Nat.le_refl _) h
  rcases hcase with ⟨-, rfl, rfl⟩ | hnone
  · exact ⟨_, .group ho hpass hc (.refl _ _)⟩
  · exact absurd hnone (by simp [closeAll?])

/-- The same with comments in front of the opening. -/
theorem skips_group {d : Delimiter} {o : Lexeme} {inside : Lexemes}
    (hopen : skipComments ts = o :: inside) (ho : o.kind = .opening d)
    (h : closeAll? [d] inside = some (stop, rest)) : Skips pos ts stop rest := by
  obtain ⟨mid, hcomments⟩ := passes_skipComments pos ts
  rw [hopen] at hcomments
  exact Skips.trans ⟨[], hcomments⟩ (skips_closeAll? ho h)

theorem skips_skipGroup? {d : Delimiter} (h : skipGroup? d ts = some (stop, rest)) :
    Skips pos ts stop rest := by
  unfold skipGroup? at h
  split at h
  · rename_i e s inside hts
    split at h
    · rename_i he
      exact skips_group hts (congrArg Kind.opening he) h
    · exact absurd h (by simp)
  · exact absurd h (by simp)

theorem skips_typeParameters (fuel : Nat) : ∀ {depth pos : Nat} {ts : Lexemes},
    skipTypeParameters? fuel depth ts = some (stop, rest) → Skips pos ts stop rest := by
  induction fuel with
  | zero =>
      intro depth pos ts h
      exact absurd h (by simp [skipTypeParameters?])
  | succ fuel ih =>
      intro depth pos ts h
      cases ts with
      | nil => exact absurd h (by simp [skipTypeParameters?])
      | cons t ts =>
          have hskip : t.kind.nests = false → Skips t.span.stop ts stop rest →
              Skips pos (t :: ts) stop rest := by
            intro ht hrest
            exact Skips.trans ⟨[], .single ht⟩ hrest
          unfold skipTypeParameters? at h
          split at h
          · rename_i ht
            exact hskip (by rw [ht]; rfl) (ih h)
          · rename_i ht
            split at h
            · injection h with h
              injection h with hstop hrest
              subst hstop hrest
              exact ⟨[], .single (by rw [ht]; rfl)⟩
            · exact hskip (by rw [ht]; rfl) (ih h)
          · rename_i d ht
            obtain ⟨⟨mid, ts'⟩, hclose, h⟩ := Option.bind_eq_some_iff.mp h
            exact (skips_closeAll? ht hclose).trans (ih h)
          · exact absurd h (by simp)
          · exact absurd h (by simp)
          · exact absurd h (by simp)
          · rename_i hopen hclose _ _
            exact hskip (Kind.not_nests hopen hclose) (ih h)

/-! ## Types

The readers of types call each other, always with less fuel, so one induction carries
what each of them skips. -/

/-- What the readers of types do with some fuel. A reader that is told where the part in
front of it ends starts from there. -/
structure SkipsTypes (fuel : Nat) : Prop where
  type : ∀ {pos stop : Nat} {ts rest : Lexemes},
    skipType? fuel ts = some (stop, rest) → Skips pos ts stop rest
  operand : ∀ {pos stop : Nat} {ts rest : Lexemes},
    skipTypeOperand? fuel ts = some (stop, rest) → Skips pos ts stop rest
  function : ∀ {pos stop : Nat} {ts rest : Lexemes},
    skipFunctionType? fuel ts = some (stop, rest) → Skips pos ts stop rest
  name : ∀ {pos stop : Nat} {ts rest : Lexemes},
    skipTypeName? fuel pos ts = some (stop, rest) → Skips pos ts stop rest
  suffix : ∀ {pos stop : Nat} {ts rest : Lexemes},
    skipTypeSuffix? fuel pos ts = some (stop, rest) → Skips pos ts stop rest
  list : ∀ {pos stop : Nat} {ts rest : Lexemes},
    skipTypeList? fuel ts = some (stop, rest) → Skips pos ts stop rest

section

variable {fuel : Nat} (ih : SkipsTypes fuel)

include ih

theorem skips_type (h : skipType? (fuel + 1) ts = some (stop, rest)) : Skips pos ts stop rest := by
  unfold skipType? at h
  obtain ⟨⟨mid, ts'⟩, hoperand, h⟩ := Option.bind_eq_some_iff.mp h
  have hfirst : Skips pos ts mid ts' := by
    split at hoperand
    · rename_i hpunct
      exact (skips_punct hpunct).trans (ih.operand hoperand)
    · rename_i hpunct _
      exact (skips_punct hpunct).trans (ih.operand hoperand)
    · exact ih.operand hoperand
  dsimp only at h
  split at h
  · rename_i hts
    exact hfirst.trans ((skips_token hts rfl).trans (ih.type h))
  · rename_i hts
    exact hfirst.trans ((skips_token hts rfl).trans (ih.type h))
  · rename_i hts
    exact hfirst.trans ((skips_token hts rfl).trans (ih.type h))
  · rename_i hts
    obtain ⟨⟨stop₁, ts₁⟩, h₁, h⟩ := Option.bind_eq_some_iff.mp h
    obtain ⟨⟨stop₂, ts₂⟩, h₂, h⟩ := Option.bind_eq_some_iff.mp h
    obtain ⟨⟨stop₃, ts₃⟩, h₃, h⟩ := Option.bind_eq_some_iff.mp h
    obtain ⟨⟨stop₄, ts₄⟩, h₄, h⟩ := Option.bind_eq_some_iff.mp h
    have hcondition : Skips mid ts' stop₂ ts₂ :=
      (skips_token hts rfl).trans ((ih.type h₁).trans (skips_punct h₂))
    exact hfirst.trans (hcondition.trans ((ih.type h₃).trans ((skips_punct h₄).trans (ih.type h))))
  · injection h with h
    injection h with hstop hrest
    subst hstop hrest
    exact hfirst

theorem skips_typeOperand (h : skipTypeOperand? (fuel + 1) ts = some (stop, rest)) :
    Skips pos ts stop rest := by
  unfold skipTypeOperand? at h
  split at h
  · rename_i hts
    split at h
    · exact (skips_token hts rfl).trans (ih.operand h)
    · split at h
      · exact (skips_token hts rfl).trans (ih.function h)
      · exact (skips_token hts rfl).trans (ih.name h)
  · rename_i hts
    exact (skips_token hts rfl).trans (ih.suffix h)
  · rename_i hts
    exact (skips_token hts rfl).trans (ih.suffix h)
  · rename_i hts
    exact (skips_token hts rfl).trans (ih.operand h)
  · rename_i hts
    obtain ⟨⟨mid, ts'⟩, hparams, h⟩ := Option.bind_eq_some_iff.mp h
    exact (skips_token hts rfl).trans ((skips_typeParameters _ hparams).trans (ih.function h))
  · rename_i hts
    obtain ⟨⟨mid, ts'⟩, hclose, h⟩ := Option.bind_eq_some_iff.mp h
    dsimp only at h
    split at h
    · -- the parenthesis belongs to a function type, which is read from it on
      obtain ⟨before, hcomments⟩ := passes_skipComments pos ts
      rw [hts] at hcomments
      exact Skips.trans ⟨[], hcomments⟩ (ih.function h)
    · exact (skips_group hts rfl hclose).trans (ih.suffix h)
  · rename_i d _ _ _ hts
    split at h
    · obtain ⟨⟨mid, ts'⟩, hclose, h⟩ := Option.bind_eq_some_iff.mp h
      exact (skips_group hts rfl hclose).trans (ih.suffix h)
    · exact absurd h (by simp)
  · exact absurd h (by simp)

theorem skips_functionType (h : skipFunctionType? (fuel + 1) ts = some (stop, rest)) :
    Skips pos ts stop rest := by
  unfold skipFunctionType? at h
  obtain ⟨⟨stop₁, ts₁⟩, h₁, h⟩ := Option.bind_eq_some_iff.mp h
  obtain ⟨⟨stop₂, ts₂⟩, h₂, h⟩ := Option.bind_eq_some_iff.mp h
  exact (skips_skipGroup? h₁).trans ((skips_punct h₂).trans (ih.type h))

theorem skips_typeName (h : skipTypeName? (fuel + 1) pos ts = some (stop, rest)) :
    Skips pos ts stop rest := by
  unfold skipTypeName? at h
  split at h
  · rename_i s ts' hts
    have hword : Skips pos ts s.stop ts' := by
      obtain ⟨mid, hcomments⟩ := passes_skipComments pos ts
      rw [hts] at hcomments
      exact ⟨_, hcomments.trans (.skip rfl (.single rfl))⟩
    exact hword.trans (ih.name h)
  · rename_i hts
    split at h
    · rename_i hlist
      exact (skips_token hts rfl).trans ((ih.list hlist).trans (ih.suffix h))
    · injection h with h
      injection h with hstop hrest
      subst hstop hrest
      exact .refl _ _
  · exact ih.suffix h

theorem skips_typeSuffix (h : skipTypeSuffix? (fuel + 1) pos ts = some (stop, rest)) :
    Skips pos ts stop rest := by
  unfold skipTypeSuffix? at h
  split at h
  · rename_i hts
    obtain ⟨⟨mid, ts'⟩, hclose, h⟩ := Option.bind_eq_some_iff.mp h
    exact (skips_group hts rfl hclose).trans (ih.suffix h)
  · injection h with h
    injection h with hstop hrest
    subst hstop hrest
    exact .refl _ _

theorem skips_typeList (h : skipTypeList? (fuel + 1) ts = some (stop, rest)) :
    Skips pos ts stop rest := by
  unfold skipTypeList? at h
  obtain ⟨⟨mid, ts'⟩, htype, h⟩ := Option.bind_eq_some_iff.mp h
  dsimp only at h
  split at h
  · rename_i hts
    exact (ih.type htype).trans ((skips_token hts rfl).trans (ih.list h))
  · rename_i hts
    injection h with h
    injection h with hstop hrest
    subst hstop hrest
    exact (ih.type htype).trans (skips_token hts rfl)
  · exact absurd h (by simp)

end

/-- **Every reader of types passes over what it reads.** -/
theorem skipsTypes (fuel : Nat) : SkipsTypes fuel := by
  induction fuel with
  | zero =>
      constructor <;> intro pos stop ts rest h
      · exact absurd h (by simp [skipType?])
      · exact absurd h (by simp [skipTypeOperand?])
      · exact absurd h (by simp [skipFunctionType?])
      · exact absurd h (by simp [skipTypeName?])
      · exact absurd h (by simp [skipTypeSuffix?])
      · exact absurd h (by simp [skipTypeList?])
  | succ fuel ih =>
      exact ⟨skips_type ih, skips_typeOperand ih, skips_functionType ih, skips_typeName ih,
        skips_typeSuffix ih, skips_typeList ih⟩

end ClassSort.Script
