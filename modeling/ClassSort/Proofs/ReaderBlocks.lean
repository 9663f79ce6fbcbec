import ClassSort.Proofs.ReaderOperands

/-!
# Reading objects, and all readers together

The members of an object are the one place where a unit can hold an element: entries are
moved with their values, and a value can be any expression. A key that can be moved is a
single lexeme, so **the elements of an entry are all in its value**.
-/

namespace ClassSort.Script

/-! ## Members -/

/-- A member that cannot be moved. -/
theorem MemberBlock.other {lo hi a b : Nat} {els : List Span} (hlo : lo ≤ a) (hab : a < b)
    (hhi : b ≤ hi) (hels : Within a b els) : MemberBlock lo hi (.other ⟨a, b⟩) els :=
  ⟨hlo, hab, hhi, .of_within hels, by simp [entryOf?], nofun⟩

theorem stop_of_entryKey? {k : Key} {key : EntryKey} (h : entryKey? k = some key) :
    key.span.stop ≤ k.span.stop := by
  cases k with
  | string s escaped =>
      obtain ⟨content, hcontent, rfl⟩ := Option.map_eq_some_iff.mp h
      unfold content? at hcontent
      split at hcontent
      · injection hcontent with hcontent
        subst hcontent
        exact Nat.sub_le _ _
      · exact absurd hcontent (by simp)
  | name s =>
      injection h with h
      subst h
      exact Nat.le_refl _
  | other s => exact absurd h (by simp [entryKey?])

/-- A key with its value. -/
theorem KeyBlock.pair {lo mid pos hi : Nat} {k : Key} {e : Expr} {els els' : List Span}
    (hk : KeyBlock lo mid k els) (he : ExprBlock pos hi e els') (hmid : mid ≤ pos) :
    MemberBlock lo hi (.pair ⟨k.span.start, e.span.stop⟩ k e) (els ++ els') := by
  have hkforward := hk.forward
  have hkstop := hk.stop
  have hestart := he.start
  have heforward := he.forward
  have hvalue : Within e.span.start e.span.stop els' := he.covers
  refine ⟨hk.start, by simp only [Member.span]; omega, he.stop, ?_, ?_, ?_⟩
  · -- the elements of a computed key and of the value, and the units of a string key
    show Block k.span.start e.span.stop _ _
    cases k with
    | string s escaped =>
        have hnone : els = [] := by
          rcases hk.single with hnone | ⟨s, hs⟩
          · exact hnone
          · exact absurd hs (by simp)
        subst hnone
        have hkey : Block s.start s.stop (stringUnits .objectKey s escaped) [] :=
          block_stringUnits .objectKey escaped
        simp only [Key.span] at hkforward hkstop ⊢
        have hboth := hkey.append (.of_within hvalue) (by omega) (by omega) (by omega)
        rw [List.append_nil] at hboth
        exact hboth
    | name s => exact .of_within ((hk.covers.mono (Nat.le_refl _) (by omega)).append
        (hvalue.mono (by omega) (Nat.le_refl _)))
    | other s => exact .of_within ((hk.covers.mono (Nat.le_refl _) (by omega)).append
        (hvalue.mono (by omega) (Nat.le_refl _)))
  · -- a key that can be moved is not a computed one, so all elements are in the value
    intro entry hentry el hel
    obtain ⟨key, hkey, rfl⟩ := Option.map_eq_some_iff.mp hentry
    have hnone : els = [] := by
      rcases hk.single with hnone | ⟨s, rfl⟩
      · exact hnone
      · exact absurd hkey (by simp [entryKey?])
    have hkeystop := stop_of_entryKey? hkey
    rw [hnone, List.nil_append] at hel
    have := hvalue el hel
    show key.span.stop ≤ el.start
    omega
  · intro p k' v heq
    obtain ⟨rfl, rfl, rfl⟩ := Member.pair.inj heq
    exact ⟨⟨Nat.le_refl _, Nat.le_of_lt hkforward, by omega, Nat.le_of_lt heforward,
      Nat.le_refl _⟩, he.formed⟩

section

variable {d : Dialect} {fuel : Nat} (ih : Readers d fuel) {lo start pos stop : Nat}
  {ts rest : Lexemes} {m : Member} {k : Key} {els : List Span}

/-- What has been passed before belongs to the members. -/
theorem ReadsMembers.after {ms : List Member} {p : Nat} {ts' : Lexemes} {els' : List Span}
    (hpass : Passes pos ts els' p ts') (h : ReadsMembers lo p ts' (els ++ els') ms stop rest) :
    ReadsMembers lo pos ts els ms stop rest := by
  obtain ⟨els'', mid, hcloses, hrow⟩ := h
  refine ⟨els' ++ els'', mid, hcloses.after hpass, ?_⟩
  rw [← List.append_assoc]
  exact hrow

/-- A member that is skipped from its key on. -/
theorem ReadsMember.of_skips (h : Skips pos ts stop rest) (hts : Ordered pos ts)
    (hlo : lo ≤ start) (hstart : start < pos) (hels : Within start pos els) :
    ReadsMember lo pos ts els (.other ⟨start, stop⟩) rest := by
  obtain ⟨els', hpass⟩ := h
  obtain ⟨hle, -, hels'⟩ := hpass.bounds hts
  refine ⟨els', stop, hpass, .other hlo (by omega) (Nat.le_refl _) ?_⟩
  exact (hels.mono (Nat.le_refl _) hle).append
    (Within.mono hels' (Nat.le_of_lt hstart) (Nat.le_refl _))

include ih

theorem reads_members {ms : List Member} (h : readMembers d (fuel + 1) ts = some (ms, stop, rest))
    (hts : Ordered pos ts) : ReadsMembers pos pos ts [] ms stop rest := by
  unfold readMembers at h
  split at h
  · -- a comment counts as a member
    rename_i s inside
    obtain ⟨hstart, hforward, hinside⟩ := hts
    obtain ⟨⟨ms', stop', rest'⟩, hmore, h⟩ := Option.bind_eq_some_iff.mp h
    simp only [Option.pure_def, Option.some.injEq, Prod.mk.injEq] at h
    obtain ⟨rfl, rfl, rfl⟩ := h
    obtain ⟨els', mid, hcloses, hrow⟩ := ih.members hmore hinside
    exact ⟨els', mid, hcloses.after (.single rfl),
      .cons (.other hstart hforward (Nat.le_refl _) (within_nil _ _)) hrow⟩
  · simp only [Option.some.injEq, Prod.mk.injEq] at h
    obtain ⟨rfl, rfl, rfl⟩ := h
    exact ⟨[], pos, ⟨_, .refl _ _, rfl, rfl⟩, .nil (Nat.le_refl _)⟩
  · rename_i s inside
    obtain ⟨hstart, hforward, hinside⟩ := hts
    obtain ⟨els', mid, hcloses, hrow⟩ := ih.members h hinside
    refine ⟨els', mid, hcloses.after (.single rfl), hrow.mono ?_ (Nat.le_refl _)⟩
    exact Nat.le_trans hstart (Nat.le_of_lt hforward)
  · -- a spread
    rename_i s inside
    obtain ⟨⟨e, ts₁⟩, he, h⟩ := Option.bind_eq_some_iff.mp h
    obtain ⟨hstart, hforward, hinside⟩ := hts
    obtain ⟨els₁, p₁, hpass₁, hblock₁⟩ := ih.expr he hinside
    obtain ⟨-, hts₁, -⟩ := hpass₁.bounds hinside
    have hfirst := hblock₁.start
    have heforward := hblock₁.forward
    have hspread : MemberBlock pos p₁ (.other ⟨s.start, e.span.stop⟩) els₁ := by
      dsimp only at hforward hfirst
      exact .other hstart (by omega) hblock₁.stop (hblock₁.covers.mono (by omega) (Nat.le_refl _))
    exact .after (.skip rfl hpass₁) (ih.moreMembers h hts₁ hspread)
  · obtain ⟨⟨m, ts₁⟩, hm, h⟩ := Option.bind_eq_some_iff.mp h
    obtain ⟨els₁, p₁, hpass₁, hblock₁⟩ := ih.member hm hts
    obtain ⟨-, hts₁, -⟩ := hpass₁.bounds hts
    exact .after hpass₁ (ih.moreMembers h hts₁ hblock₁)

theorem reads_moreMembers {first : Member} {ms : List Member}
    (h : readMoreMembers d (fuel + 1) first ts = some (ms, stop, rest)) (hts : Ordered pos ts)
    (hfirst : MemberBlock lo pos first els) : ReadsMembers lo pos ts els ms stop rest := by
  have hmore : ((readMembers d fuel ts).bind fun r => some (first :: r.1, r.2.1, r.2.2)) =
      some (ms, stop, rest) → ReadsMembers lo pos ts els ms stop rest := by
    intro h
    obtain ⟨⟨ms', stop', rest'⟩, hmore, h⟩ := Option.bind_eq_some_iff.mp h
    simp only [Option.some.injEq, Prod.mk.injEq] at h
    obtain ⟨rfl, rfl, rfl⟩ := h
    obtain ⟨els', mid, hcloses, hrow⟩ := ih.members hmore hts
    exact ⟨els', mid, hcloses, .cons hfirst hrow⟩
  unfold readMoreMembers at h
  split at h
  · exact hmore h
  · exact hmore h
  · exact absurd h (by simp)

theorem reads_member (h : readMember d (fuel + 1) ts = some (m, rest)) (hts : Ordered pos ts) :
    ReadsMember pos pos ts [] m rest := by
  unfold readMember at h
  split at h
  · rename_i s inside
    obtain ⟨hstart, hforward, hinside⟩ := hts
    exact .after (.single rfl) (ih.method h hinside hstart hforward (within_nil _ _))
  · rename_i w s inside
    obtain ⟨hstart, hforward, hinside⟩ := hts
    have hmethod : (if methodWords.contains w then readMethod d fuel s.start inside else none) =
        some (m, rest) → ReadsMember pos pos (⟨.word w, s⟩ :: inside) [] m rest := by
      intro h
      split at h
      · exact .after (.single rfl) (ih.method h hinside hstart hforward (within_nil _ _))
      · exact absurd h (by simp)
    have hshort : some (.other s, inside) = some (m, rest) →
        ReadsMember pos pos (⟨.word w, s⟩ :: inside) [] m rest := by
      intro h
      obtain ⟨rfl, rfl⟩ := Prod.mk.inj (Option.some.inj h)
      exact ⟨[], s.stop, .single rfl,
        .other hstart hforward (Nat.le_refl _) (within_nil _ _)⟩
    split at h
    · exact hmethod h
    · exact hmethod h
    · exact hmethod h
    · exact hmethod h
    · exact hmethod h
    · exact hshort h
    · exact hshort h
    · have hkey : KeyBlock pos s.stop (.name s) [] :=
        ⟨hstart, hforward, Nat.le_refl _, within_nil _ _, .inl rfl⟩
      exact .after (.single rfl) (ih.keyed h hinside hkey)
  · obtain ⟨⟨k, ts₁⟩, hk, h⟩ := Option.bind_eq_some_iff.mp h
    obtain ⟨els₁, p₁, hpass₁, hblock₁⟩ := ih.key hk hts
    obtain ⟨-, hts₁, -⟩ := hpass₁.bounds hts
    exact .after hpass₁ (ih.keyed h hts₁ hblock₁)

theorem reads_key (h : readKey d (fuel + 1) ts = some (k, rest)) (hts : Ordered pos ts) :
    ∃ els stop, Passes pos ts els stop rest ∧ KeyBlock pos stop k els := by
  have hsingle : ∀ {t : Lexeme} {inside : Lexemes} {k' : Key}, skipComments ts = t :: inside →
      t.kind.nests = false → k'.span = t.span → some (k', inside) = some (k, rest) →
      ∃ els stop, Passes pos ts els stop rest ∧ KeyBlock pos stop k els := by
    intro t inside k' htoken ht hspan h
    obtain ⟨hstart, hforward, -⟩ := hts.token htoken
    obtain ⟨rfl, rfl⟩ := Prod.mk.inj (Option.some.inj h)
    rw [← hspan] at hstart hforward
    exact ⟨[], t.span.stop, passes_token htoken ht, hstart, hforward, Nat.le_of_eq (by rw [hspan]),
      within_nil _ _, .inl rfl⟩
  unfold readKey at h
  split at h
  · rename_i htoken
    exact hsingle htoken rfl rfl h
  · rename_i htoken
    exact hsingle htoken rfl rfl h
  · rename_i htoken
    exact hsingle htoken rfl rfl h
  · -- a computed key, which can hold elements
    rename_i s inside hopen
    obtain ⟨hstart, hforward, hinside⟩ := hts.token hopen
    obtain ⟨⟨e, ts₁⟩, he, h⟩ := Option.bind_eq_some_iff.mp h
    obtain ⟨els₁, p₁, hpass₁, hblock₁⟩ := ih.sequence he hinside
    obtain ⟨hp₁, hts₁, hels₁⟩ := hpass₁.bounds hinside
    dsimp only at h
    split at h
    · rename_i s' ts₂ hclose
      obtain ⟨hcstart, hcforward, -⟩ := hts₁.token hclose
      obtain ⟨rfl, rfl⟩ := Prod.mk.inj (Option.some.inj h)
      dsimp only at hstart hforward hp₁ hcstart hcforward
      refine ⟨els₁, s'.stop, passes_group (by decide) hopen rfl hpass₁ hclose rfl,
        hstart, ?_, Nat.le_refl _, ?_, .inr ⟨_, rfl⟩⟩
      · show s.start < s'.stop
        omega
      · show Within s.start s'.stop els₁
        exact Within.mono hels₁ (by dsimp only; omega) (by omega)
    · exact absurd h (by simp)
  · exact absurd h (by simp)

theorem reads_keyed (h : readKeyed d (fuel + 1) k ts = some (m, rest)) (hts : Ordered pos ts)
    (hk : KeyBlock lo pos k els) : ReadsMember lo pos ts els m rest := by
  unfold readKeyed at h
  split at h
  · rename_i q ts₁ hcolon
    have hpass : Passes pos ts [] q ts₁ := passes_skipPunct? hcolon
    obtain ⟨hq, hts₁, -⟩ := hpass.bounds hts
    obtain ⟨⟨value, ts₂⟩, hvalue, h⟩ := Option.bind_eq_some_iff.mp h
    obtain ⟨rfl, rfl⟩ := Prod.mk.inj (Option.some.inj h)
    obtain ⟨els₂, p₂, hpass₂, hblock₂⟩ := ih.expr hvalue hts₁
    exact ⟨els₂, p₂, hpass.trans hpass₂, hk.pair hblock₂ hq⟩
  · obtain ⟨⟨stop, ts₁⟩, hfunction, h⟩ := Option.bind_eq_some_iff.mp h
    obtain ⟨rfl, rfl⟩ := Prod.mk.inj (Option.some.inj h)
    exact ReadsMember.of_skips (skips_function hfunction) hts hk.start
      (Nat.lt_of_lt_of_le hk.forward hk.stop) (hk.covers.mono (Nat.le_refl _) hk.stop)

theorem reads_method (h : readMethod d (fuel + 1) start ts = some (m, rest)) (hts : Ordered pos ts)
    (hlo : lo ≤ start) (hstart : start < pos) (hels : Within start pos els) :
    ReadsMember lo pos ts els m rest := by
  unfold readMethod at h
  split at h
  · rename_i q ts₁ hstar
    have hpass : Passes pos ts [] q ts₁ := passes_skipPunct? hstar
    obtain ⟨hq, hts₁, -⟩ := hpass.bounds hts
    refine .after hpass (ih.method h hts₁ hlo (by omega) ?_)
    rw [List.append_nil]
    exact hels.mono (Nat.le_refl _) hq
  · obtain ⟨⟨k, ts₁⟩, hk, h⟩ := Option.bind_eq_some_iff.mp h
    obtain ⟨els₁, p₁, hpass₁, hblock₁⟩ := ih.key hk hts
    obtain ⟨hp₁, hts₁, hels₁⟩ := hpass₁.bounds hts
    have hfront : Within start p₁ (els ++ els₁) :=
      (hels.mono (Nat.le_refl _) hp₁).append
        (Within.mono hels₁ (Nat.le_of_lt hstart) (Nat.le_refl _))
    dsimp only at h
    split at h
    · rename_i hfunction
      obtain ⟨rfl, rfl⟩ := Prod.mk.inj (Option.some.inj h)
      exact .after hpass₁
        (ReadsMember.of_skips (skips_function hfunction) hts₁ hlo (by omega) hfront)
    · split at h
      · exact .after hpass₁ (ih.method h hts₁ hlo (by omega) hfront)
      · exact absurd h (by simp)

end

/-! ## All readers -/

/-- Without fuel nothing is read. -/
theorem readers_zero (d : Dialect) : Readers d 0 where
  expr := fun h => absurd h (by simp [readExpr])
  sequence := fun h => absurd h (by simp [readSequence])
  binary := fun h => absurd h (by simp [readBinary])
  operators := fun h => absurd h (by simp [readOperators])
  unary := fun h => absurd h (by simp [readUnary])
  suffixed := fun h => absurd h (by simp [readPostfix])
  suffixes := fun h => absurd h (by simp [readSuffixes])
  index := fun h => absurd h (by simp [readIndex])
  items := fun h => absurd h (by simp [readItems])
  moreItems := fun h => absurd h (by simp [readMoreItems])
  holes := fun h => absurd h (by simp [readHoles])
  arrowBody := fun h => absurd h (by simp [readArrowBody])
  wordOperand := fun h => absurd h (by simp [readWordOperand])
  construct := fun h => absurd h (by simp [readNew])
  constructSuffixes := fun h => absurd h (by simp [readNewSuffixes])
  primary := fun h => absurd h (by simp [readPrimary])
  members := fun h => absurd h (by simp [readMembers])
  moreMembers := fun h => absurd h (by simp [readMoreMembers])
  member := fun h => absurd h (by simp [readMember])
  key := fun h => absurd h (by simp [readKey])
  keyed := fun h => absurd h (by simp [readKeyed])
  method := fun h => absurd h (by simp [readMethod])

/-- **Every reader passes over what it reads, and finds units only where they may be.** -/
theorem readers (d : Dialect) (fuel : Nat) : Readers d fuel := by
  induction fuel using Nat.strongRecOn with
  | ind fuel ih =>
      cases fuel with
      | zero => exact readers_zero d
      | succ fuel =>
          -- one reader looks two steps ahead, so the induction is a strong one
          have here : Readers d fuel := ih fuel (Nat.lt_succ_self fuel)
          exact {
            expr := reads_expr here
            sequence := reads_sequence here
            binary := reads_binary here
            operators := reads_operators here
            unary := reads_unary here
            suffixed := reads_suffixed here
            suffixes := reads_suffixes fun n hn => ih n (Nat.lt_succ_of_le hn)
            index := reads_index here
            items := reads_items here
            moreItems := reads_moreItems here
            holes := reads_holes here
            arrowBody := reads_arrowBody here
            wordOperand := reads_wordOperand here
            construct := reads_construct here
            constructSuffixes := reads_constructSuffixes here
            primary := reads_primary here
            members := reads_members here
            moreMembers := reads_moreMembers here
            member := reads_member here
            key := reads_key here
            keyed := reads_keyed here
            method := reads_method here }

end ClassSort.Script
