import ClassSort.Proofs.Slices
import ClassSort.Script.Lexer

/-!
# Lexemes and characters

A range can be read if it begins and ends between characters. Every lexeme does, because the lexer
cuts its text in whole characters. A string does so also without its quotes, since a quote is a
single byte: the lexer answers with a string only if it has seen both of them.
-/

namespace ClassSort

namespace Text

/-- An offset between two characters of a text, or at one of its ends. -/
def Boundary (cs : Text) (n : Nat) : Prop := ∃ a b, cs = a ++ b ∧ size a = n

theorem boundary_append (a b : Text) : Boundary (a ++ b) (size a) := ⟨a, b, rfl, rfl⟩

/-- **Between boundaries there is something to read.** -/
theorem Boundary.exists_slice? {cs : Text} {i j : Nat} (hi : Boundary cs i) (hj : Boundary cs j)
    (hij : i ≤ j) : ∃ x, slice? cs ⟨i, j⟩ = some x := by
  obtain ⟨a, b, rfl, rfl⟩ := hi
  obtain ⟨c, d, hsplit, rfl⟩ := hj
  rcases List.append_eq_append_iff.mp hsplit with ⟨x, rfl, rfl⟩ | ⟨x, rfl, rfl⟩
  · refine ⟨x, slice?_eq_some.mpr ⟨a, d, by rw [List.append_assoc], rfl, ?_⟩⟩
    rw [size_append]
  · -- the second offset is not before the first, so they are the same
    rw [size_append] at hij ⊢
    have hx : size x = 0 := by omega
    refine ⟨[], slice?_eq_some.mpr ⟨c ++ x, b, by rw [List.append_nil], size_append c x, ?_⟩⟩
    rw [hx]
    rfl

end Text

/-- Both ends of a range are boundaries. -/
def Span.Aligned (source : Text) (s : Span) : Prop :=
  source.Boundary s.start ∧ source.Boundary s.stop

theorem Span.aligned_of_slice? {source x : Text} {s : Span} (h : Text.slice? source s = some x) :
    s.Aligned source := by
  obtain ⟨a, b, rfl, hstart, hstop⟩ := Text.slice?_eq_some.mp h
  refine ⟨⟨a, x ++ b, List.append_assoc _ _ _, hstart⟩, ⟨a ++ x, b, rfl, ?_⟩⟩
  rw [Text.size_append]
  omega

namespace Script

/-- A range without its quotes. -/
def unquoted (s : Span) : Span := ⟨s.start + 1, s.stop - 1⟩

/-- A lexeme that ends between characters, and a string without its quotes as well. -/
structure Lexeme.Aligned (source : Text) (t : Lexeme) : Prop where
  ends : t.span.Aligned source
  quotes : ∀ escaped, t.kind = .string escaped → (unquoted t.span).Aligned source

/-! ## Strings -/

/-- What is scanned is there, and ends with the quote if it was found. -/
theorem string_split (quote : Char) (cs : Text) : ∀ escaped : Bool,
    (Scan.string quote escaped cs).1 <+: cs ∧
      ((Scan.string quote escaped cs).2 = true →
        ∃ body, (Scan.string quote escaped cs).1 = body ++ [quote]) := by
  induction cs with
  | nil =>
      intro escaped
      exact ⟨List.prefix_rfl, nofun⟩
  | cons c cs ih =>
      intro escaped
      have hmore (escaped' : Bool) : c :: (Scan.string quote escaped' cs).1 <+: c :: cs ∧
          ((Scan.string quote escaped' cs).2 = true →
            ∃ body, c :: (Scan.string quote escaped' cs).1 = body ++ [quote]) := by
        obtain ⟨hfront, hquote⟩ := ih escaped'
        refine ⟨List.cons_prefix_cons.mpr ⟨rfl, hfront⟩, fun hclosed => ?_⟩
        obtain ⟨body, hbody⟩ := hquote hclosed
        exact ⟨c :: body, by rw [hbody]; rfl⟩
      unfold Scan.string
      split
      · exact hmore _
      · split
        · rename_i hc
          refine ⟨List.cons_prefix_cons.mpr ⟨rfl, List.nil_prefix⟩, fun _ => ⟨[], ?_⟩⟩
          rw [eq_of_beq hc]
          rfl
        · split
          · exact ⟨List.nil_prefix, nofun⟩
          · exact hmore _

/-- A piece that is a string begins and ends with a quote. -/
def Piece.Quotes (cs : Text) (p : Piece) : Prop :=
  ∀ escaped, p.kind = some (.string escaped) → ∃ quote body,
    cs.take (max 1 p.length) = quote :: (body ++ [quote]) ∧ quote.utf8Size = 1

theorem Piece.quotes_ite {c : Prop} [Decidable c] {cs : Text} {a b : Piece} (ha : c → a.Quotes cs)
    (hb : ¬ c → b.Quotes cs) : (if c then a else b).Quotes cs := by
  by_cases hc : c
  · rw [if_pos hc]
    exact ha hc
  · rw [if_neg hc]
    exact hb hc

theorem quotes_readString (st : LexState) {quote : Char} (hquote : quote = '"' ∨ quote = '\'')
    (rest : Text) : (readString st quote (quote :: rest)).Quotes (quote :: rest) := by
  intro escaped h
  obtain ⟨hfront, hclosed⟩ := string_split quote rest false
  unfold readString at h ⊢
  dsimp only [List.drop_one, List.tail_cons] at h ⊢
  split at h
  · rename_i hvalid
    obtain ⟨body, hbody⟩ := hclosed (Bool.and_eq_true_iff.mp hvalid).1
    have htake : rest.take (Scan.string quote false rest).1.length = body ++ [quote] := by
      rw [← hbody]
      exact (List.prefix_iff_eq_take.mp hfront).symm
    refine ⟨quote, body, ?_, ?_⟩
    · rw [Nat.max_eq_right (Nat.le_add_left 1 _), List.take_succ_cons]
      exact congrArg _ htake
    · rcases hquote with rfl | rfl
      · decide
      · decide
  · exact absurd h (by simp)

/-! ## Other pieces -/

theorem quotes_readPunct (st : LexState) (cs : Text) : (readPunct st cs).Quotes cs := by
  unfold readPunct
  split
  · exact nofun
  · exact nofun

theorem quotes_readSlash (st : LexState) (cs : Text) : (readSlash st cs).Quotes cs := by
  unfold readSlash
  split
  · exact nofun
  · exact nofun
  · split
    · split
      · exact nofun
      · exact quotes_readPunct st _
    · exact quotes_readPunct st _

theorem quotes_readClosing (st : LexState) (mark : Char) (cs : Text) :
    (readClosing st mark).Quotes cs := by
  unfold readClosing
  split
  · exact nofun
  · exact nofun

theorem quotes_readElementStart (st : LexState) (cs : Text) :
    (readElementStart st cs).Quotes cs := by
  unfold readElementStart
  dsimp only
  split
  · exact nofun
  · exact nofun

theorem quotes_readCode (d : Dialect) (colon : Bool) (st : LexState) (cs : Text) :
    (readCode d colon st cs).Quotes cs := by
  unfold readCode
  split
  · exact nofun
  · rename_i c rest
    refine Piece.quotes_ite (fun _ => nofun) fun _ => ?_
    refine Piece.quotes_ite (fun _ => quotes_readSlash st _) fun _ => ?_
    refine Piece.quotes_ite (fun hquote => ?_) fun _ => ?_
    · refine quotes_readString st ?_ rest
      simpa using hquote
    refine Piece.quotes_ite (fun _ => nofun) fun _ => ?_
    refine Piece.quotes_ite (fun _ => nofun) fun _ => ?_
    refine Piece.quotes_ite (fun _ => nofun) fun _ => ?_
    refine Piece.quotes_ite (fun _ => nofun) fun _ => ?_
    refine Piece.quotes_ite (fun _ => nofun) fun _ => ?_
    refine Piece.quotes_ite (fun _ => nofun) fun _ => ?_
    refine Piece.quotes_ite (fun _ => quotes_readClosing st c _) fun _ => ?_
    exact Piece.quotes_ite (fun _ => quotes_readElementStart st _) fun _ => quotes_readPunct st _

theorem quotes_readTemplate (st : LexState) (cs : Text) : (readTemplate st cs).Quotes cs := by
  unfold readTemplate
  split
  · exact nofun
  · exact nofun
  · intro escaped h
    dsimp only at h
    split at h
    · exact absurd h (by simp)
    · exact absurd h (by simp)

theorem quotes_readChildren (st : LexState) (cs : Text) : (readChildren st cs).Quotes cs := by
  unfold readChildren
  split
  · exact Piece.quotes_ite (fun _ => nofun) fun _ => quotes_readElementStart st _
  · exact nofun
  · exact nofun

theorem quotes_readTag (st : LexState) (place : TagPlace) (cs : Text) :
    (readTag st place cs).Quotes cs := by
  unfold readTag
  split
  · exact nofun
  · rename_i c rest
    refine Piece.quotes_ite (fun _ => nofun) fun _ => ?_
    refine Piece.quotes_ite (fun _ => nofun) fun _ => ?_
    refine Piece.quotes_ite (fun _ => ?_) fun _ => ?_
    · split
      · exact quotes_readSlash st _
      · exact quotes_readSlash st _
      · split
        · exact nofun
        · exact nofun
    refine Piece.quotes_ite (fun _ => nofun) fun _ => ?_
    refine Piece.quotes_ite (fun _ => nofun) fun _ => ?_
    refine Piece.quotes_ite (fun _ => ?_) fun _ => ?_
    · -- the value of an attribute is another kind of string
      intro escaped h
      dsimp only at h
      split at h
      · exact absurd h (by simp)
      · exact absurd h (by simp)
    refine Piece.quotes_ite (fun _ => ?_) fun _ => ?_
    · exact Piece.quotes_ite (fun _ => quotes_readElementStart _ _) fun _ => nofun
    refine Piece.quotes_ite (fun _ => ?_) fun _ => nofun
    intro escaped h
    unfold readTagWord at h
    dsimp only at h
    split at h
    · exact absurd h (by simp)
    · exact absurd h (by simp)

theorem quotes_read (d : Dialect) (colon : Bool) (st : LexState) (cs : Text) :
    (read d colon st cs).Quotes cs := by
  unfold read
  split
  · exact quotes_readTemplate st cs
  · exact quotes_readChildren st cs
  · exact quotes_readTag st _ cs
  · exact quotes_readCode d colon st cs

/-! ## Lexemes -/

/-- The lexeme of a piece. -/
theorem aligned_piece {a cs : Text} {p : Piece} {kind : Kind} (hkind : p.kind = some kind)
    (hquotes : p.Quotes cs) :
    Lexeme.Aligned (a ++ cs)
      ⟨kind, ⟨Text.size a, Text.size a + Text.size (cs.take (max 1 p.length))⟩⟩ := by
  have hcut : a ++ cs = (a ++ cs.take (max 1 p.length)) ++ cs.drop (max 1 p.length) := by
    rw [List.append_assoc, List.take_append_drop]
  refine ⟨⟨Text.boundary_append _ _, ⟨_, _, hcut, Text.size_append _ _⟩⟩, ?_⟩
  rintro escaped rfl
  obtain ⟨quote, body, htake, hsize⟩ := hquotes escaped hkind
  rw [htake] at hcut ⊢
  refine ⟨⟨a ++ [quote], body ++ [quote] ++ cs.drop (max 1 p.length), ?_, ?_⟩,
    ⟨a ++ quote :: body, [quote] ++ cs.drop (max 1 p.length), ?_, ?_⟩⟩
  · rw [hcut]
    simp
  · show _ = Text.size a + 1
    rw [Text.size_append, Text.size_cons, hsize]
    rfl
  · rw [hcut]
    simp
  · show _ = Text.size a + Text.size (quote :: (body ++ [quote])) - 1
    rw [Text.size_append, Text.size_cons, Text.size_cons, Text.size_append, Text.size_cons, hsize]
    show _ = Text.size a + (1 + (Text.size body + (1 + 0))) - 1
    omega

theorem aligned_lexFrom (d : Dialect) (fuel : Nat) : ∀ (colon : Bool) (st : LexState) (a cs : Text),
    ∀ t ∈ lexFrom d fuel colon st (Text.size a) cs, t.Aligned (a ++ cs) := by
  induction fuel with
  | zero =>
      intro colon st a cs t ht
      cases ht
  | succ fuel ih =>
      intro colon st a cs t ht
      cases cs with
      | nil => cases ht
      | cons c cs =>
          have hquotes := quotes_read d colon st (c :: cs)
          rw [lexFrom] at ht
          generalize read d colon st (c :: cs) = piece at ht hquotes
          have hrest {colon' : Bool} {t : Lexeme}
              (ht : t ∈ lexFrom d fuel colon' piece.state
                (Text.size a + Text.size ((c :: cs).take (max 1 piece.length)))
                ((c :: cs).drop (max 1 piece.length))) : t.Aligned (a ++ c :: cs) := by
            rw [← Text.size_append] at ht
            have hthere := ih _ _ _ _ t ht
            rw [List.append_assoc, List.take_append_drop] at hthere
            exact hthere
          split at ht
          · exact hrest ht
          · rename_i kind hkind
            rcases List.mem_cons.mp ht with rfl | ht
            · exact aligned_piece hkind hquotes
            · exact hrest ht

/-- **Lexemes end between characters, and strings without their quotes as well.** -/
theorem aligned_lex (d : Dialect) (source : Text) : ∀ t ∈ lex d source, t.Aligned source := by
  intro t ht
  have hthere := aligned_lexFrom d _ _ _ _ _ t ht
  rw [List.take_append_drop] at hthere
  exact hthere

end Script

end ClassSort
