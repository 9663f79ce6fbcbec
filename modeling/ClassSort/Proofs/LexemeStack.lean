import ClassSort.Proofs.Slices
import ClassSort.Script.Lexer

/-!
# What the lexer promises

Two facts about the lexemes of any script, however broken. They stand in order, each in
its own place. And the openings and closings among them follow the stack of frames, as
far as that can be said of a broken script: an opening adds its delimiter to the stack,
a closing that fits the innermost delimiter takes it away, and **the name of an attribute
occurs only directly inside an element**. A closing that does not fit may drop any number
of frames, so nothing is said about the stack behind it.
-/

namespace ClassSort.Script

/-! ## Order -/

/-- Each lexeme begins behind the one before it, the first at `pos` or later. -/
def Ordered : Nat → Lexemes → Prop
  | _, [] => True
  | pos, t :: ts => pos ≤ t.span.start ∧ t.span.start < t.span.stop ∧ Ordered t.span.stop ts

theorem Ordered.mono {p q : Nat} {ts : Lexemes} (h : Ordered q ts) (hpq : p ≤ q) :
    Ordered p ts := by
  cases ts with
  | nil => trivial
  | cons t ts => exact ⟨Nat.le_trans hpq h.1, h.2⟩

theorem Ordered.start_le {p : Nat} {ts : Lexemes} (h : Ordered p ts) {t : Lexeme} (ht : t ∈ ts) :
    p ≤ t.span.start := by
  induction ts generalizing p with
  | nil => exact absurd ht (by simp)
  | cons t' ts ih =>
      obtain ⟨hstart, hforward, hrest⟩ := h
      rcases List.mem_cons.mp ht with rfl | ht
      · exact hstart
      · have := ih hrest ht
        omega

/-- A lexeme and what follows it. -/
theorem Ordered.of_suffix {p : Nat} {ts : Lexemes} (h : Ordered p ts) {t : Lexeme}
    {after : Lexemes} (ht : t :: after <:+ ts) : Ordered p (t :: after) := by
  induction ts generalizing p with
  | nil => exact absurd ht.length_le (by simp)
  | cons t' ts ih =>
      rcases List.suffix_cons_iff.mp ht with heq | ht
      · rwa [heq]
      · obtain ⟨hstart, hforward, hrest⟩ := h
        exact (ih hrest ht).mono (by omega)

theorem ordered_lexFrom (d : Dialect) (fuel : Nat) : ∀ (colon : Bool) (st : LexState) (pos : Nat)
    (cs : Text), Ordered pos (lexFrom d fuel colon st pos cs) ∧
      ∀ t ∈ lexFrom d fuel colon st pos cs, t.span.stop ≤ pos + Text.size cs := by
  induction fuel with
  | zero =>
      intro colon st pos cs
      exact ⟨trivial, by simp [lexFrom]⟩
  | succ fuel ih =>
      intro colon st pos cs
      cases cs with
      | nil => exact ⟨trivial, by simp [lexFrom]⟩
      | cons c cs =>
          rw [lexFrom]
          generalize read d colon st (c :: cs) = piece
          -- a piece has at least one character
          have htake : 0 < Text.size ((c :: cs).take (max 1 piece.length)) := by
            refine Text.size_pos ?_
            simp
          have hcut : Text.size ((c :: cs).take (max 1 piece.length)) +
              Text.size ((c :: cs).drop (max 1 piece.length)) = Text.size (c :: cs) := by
            rw [← Text.size_append, List.take_append_drop]
          generalize Text.size ((c :: cs).take (max 1 piece.length)) = width at htake hcut
          generalize (c :: cs).drop (max 1 piece.length) = rest at hcut
          split
          · obtain ⟨hordered, hbelow⟩ := ih colon piece.state (pos + width) rest
            refine ⟨hordered.mono (by omega), fun t ht => ?_⟩
            have := hbelow t ht
            omega
          · rename_i kind _
            obtain ⟨hordered, hbelow⟩ := ih (kind == .punct ":") piece.state (pos + width) rest
            refine ⟨⟨Nat.le_refl pos, by dsimp only; omega, hordered⟩, fun t ht => ?_⟩
            rcases List.mem_cons.mp ht with rfl | ht
            · dsimp only
              omega
            · have := hbelow t ht
              omega

/-- The lexemes of a script stand in order, inside the script. -/
theorem ordered_lex (d : Dialect) (source : Text) :
    Ordered 0 (lex d source) ∧ ∀ t ∈ lex d source, t.span.stop ≤ Text.size source := by
  unfold lex
  dsimp only
  obtain ⟨hordered, hbelow⟩ := ordered_lexFrom d source.length false {}
    (Text.size (source.take (interpreterLine source))) (source.drop (interpreterLine source))
  refine ⟨hordered.mono (Nat.zero_le _), fun t ht => ?_⟩
  have hcut := congrArg Text.size (List.take_append_drop (interpreterLine source) source)
  rw [Text.size_append] at hcut
  have := hbelow t ht
  omega

/-! ## The stack -/

/-- How a lexeme changes the delimiters that are open, innermost first. -/
def Moves (σ : List Delimiter) (kind : Option Kind) (σ' : List Delimiter) : Prop :=
  match kind with
  | some (.opening d) => σ' = d :: σ
  | some (.closing d) => ∀ outer, σ = d :: outer → σ' = outer
  | some (.attribute _) => σ.head? = some .element ∧ σ' = σ
  | _ => σ' = σ

/-- Lexemes that follow a stack. -/
def Tracked : List Delimiter → Lexemes → Prop
  | _, [] => True
  | σ, t :: ts => ∃ σ', Moves σ (some t.kind) σ' ∧ Tracked σ' ts

theorem Tracked.of_opening {σ : List Delimiter} {o : Lexeme} {ts : Lexemes} {d : Delimiter}
    (h : Tracked σ (o :: ts)) (ho : o.kind = .opening d) : Tracked (d :: σ) ts := by
  obtain ⟨σ', hmoves, hts⟩ := h
  rw [ho] at hmoves
  rwa [show σ' = d :: σ from hmoves] at hts

theorem Tracked.of_closing {σ : List Delimiter} {c : Lexeme} {ts : Lexemes} {d : Delimiter}
    (h : Tracked (d :: σ) (c :: ts)) (hc : c.kind = .closing d) : Tracked σ ts := by
  obtain ⟨σ', hmoves, hts⟩ := h
  rw [hc] at hmoves
  rwa [hmoves σ rfl] at hts

namespace LexState

/-- The delimiters that are open. -/
def stack (st : LexState) : List Delimiter := st.frames.map Frame.delimiter

@[simp] theorem stack_push (f : Frame) (st : LexState) :
    (st.push f).stack = f.delimiter :: st.stack := rfl

@[simp] theorem stack_afterWord (w : String) (st : LexState) : (st.afterWord w).stack = st.stack := by
  unfold afterWord
  repeat' split
  all_goals rfl

@[simp] theorem stack_afterPunct (p : String) (st : LexState) :
    (st.afterPunct p).stack = st.stack := by
  unfold afterPunct
  repeat' split
  all_goals rfl

end LexState

/-- The step that a piece makes on the stack. -/
def Piece.Moves (st : LexState) (p : Piece) : Prop := Script.Moves st.stack p.kind p.state.stack

/-- The readers below decide by long chains of conditions; this takes one at a time. -/
theorem Piece.moves_ite {c : Prop} [Decidable c] {st : LexState} {a b : Piece}
    (ha : c → a.Moves st) (hb : ¬ c → b.Moves st) : (if c then a else b).Moves st := by
  by_cases hc : c
  · rw [if_pos hc]
    exact ha hc
  · rw [if_neg hc]
    exact hb hc

theorem moves_readPunct (st : LexState) (cs : Text) : (readPunct st cs).Moves st := by
  unfold readPunct Piece.Moves
  split
  · exact st.stack_afterPunct _
  · rfl

theorem moves_readSlash (st : LexState) (cs : Text) : (readSlash st cs).Moves st := by
  unfold readSlash
  split
  · rfl
  · rfl
  · split
    · split
      · rfl
      · exact moves_readPunct st cs
    · exact moves_readPunct st cs

theorem moves_readString (st : LexState) (quote : Char) (cs : Text) :
    (readString st quote cs).Moves st := by
  unfold readString Piece.Moves
  dsimp only
  split <;> rfl

theorem moves_readElementStart (st : LexState) (cs : Text) : (readElementStart st cs).Moves st := by
  unfold readElementStart
  dsimp only
  split <;> rfl

/-- Frames of one delimiter are closed by the same mark. -/
theorem Frame.closedBy_congr {f g : Frame} (h : f.delimiter = g.delimiter) (mark : Char) :
    f.closedBy mark = g.closedBy mark := by
  cases f <;> cases g <;> first | rfl | exact absurd h (by simp [Frame.delimiter])

theorem closedBy_of_closeFrame? {mark : Char} {f : Frame} {fs rest : List Frame}
    (h : closeFrame? mark fs = some (f, rest)) : f.closedBy mark = true := by
  induction fs with
  | nil => exact absurd h (by simp [closeFrame?])
  | cons g fs ih =>
      unfold closeFrame? at h
      split at h
      · rename_i hg
        injection h with h
        injection h with hf
        rw [← hf]
        exact hg
      · split at h
        · exact ih h
        · exact absurd h (by simp)

/-- A closing mark takes the innermost frame away when it fits, and claims to fit only
then. -/
theorem moves_readClosing (st : LexState) {mark : Char}
    (hmark : mark = ')' ∨ mark = ']' ∨ mark = '}') : (readClosing st mark).Moves st := by
  unfold readClosing
  split
  · rename_i hnone
    intro outer houter
    rcases hframes : st.frames with _ | ⟨g, fs⟩
    · unfold LexState.stack at houter
      rw [hframes] at houter
      exact absurd houter (by simp)
    · -- the innermost frame would have been found
      have hg : g.delimiter = markDelimiter mark := by
        unfold LexState.stack at houter
        rw [hframes] at houter
        injection houter
      have hclosed : g.closedBy mark = true := by
        rcases hmark with rfl | rfl | rfl <;> cases g <;>
          first | rfl | exact absurd hg (by simp [Frame.delimiter, markDelimiter])
      rw [hframes, closeFrame?, if_pos hclosed] at hnone
      exact absurd hnone (by simp)
  · rename_i f rest hsome
    -- an innermost frame of this delimiter is closed by the same mark, so it is the one taken
    have hclosed := closedBy_of_closeFrame? hsome
    have hstack : ∀ st' : LexState, st'.frames = rest →
        ∀ outer, st.stack = f.delimiter :: outer → st'.stack = outer := by
      intro st' hst' outer houter
      unfold LexState.stack at houter ⊢
      rcases hframes : st.frames with _ | ⟨g, fs⟩
      · rw [hframes] at houter
        exact absurd houter (by simp)
      · rw [hframes] at houter
        injection houter with hg hfs
        rw [Frame.closedBy_congr hg.symm] at hclosed
        rw [hframes, closeFrame?, if_pos hclosed] at hsome
        injection hsome with hsome
        injection hsome with _ hrest
        rw [hst', ← hrest]
        exact hfs
    dsimp only
    split <;> exact hstack _ rfl

theorem moves_readCode (d : Dialect) (colon : Bool) (st : LexState) (cs : Text) :
    (readCode d colon st cs).Moves st := by
  unfold readCode
  split
  · rfl
  · rename_i c rest
    refine Piece.moves_ite (fun _ => rfl) fun _ => ?_
    refine Piece.moves_ite (fun _ => moves_readSlash st (c :: rest)) fun _ => ?_
    refine Piece.moves_ite (fun _ => moves_readString st c (c :: rest)) fun _ => ?_
    refine Piece.moves_ite (fun _ => rfl) fun _ => ?_
    refine Piece.moves_ite (fun _ => rfl) fun _ => ?_
    refine Piece.moves_ite (fun _ => st.stack_afterWord _) fun _ => ?_
    refine Piece.moves_ite (fun _ => rfl) fun _ => ?_
    refine Piece.moves_ite (fun _ => rfl) fun _ => ?_
    refine Piece.moves_ite (fun _ => ?_) fun _ => ?_
    · -- a brace opens a frame of its delimiter, whatever it stands for
      have hbrace : (st.braceFrame colon).delimiter = .brace := by
        unfold LexState.braceFrame
        repeat' split
        all_goals rfl
      have hstack : (st.push (st.braceFrame colon)).stack = .brace :: st.stack := by
        rw [LexState.stack_push, hbrace]
      unfold Piece.Moves
      dsimp only
      split <;> exact hstack
    refine Piece.moves_ite (fun hclosing => ?_) fun _ => ?_
    · simp only [Bool.or_eq_true, beq_iff_eq, or_assoc] at hclosing
      exact moves_readClosing st hclosing
    · exact Piece.moves_ite (fun _ => moves_readElementStart st (c :: rest))
        fun _ => moves_readPunct st (c :: rest)

/-- Inside a template, where its end takes it away. -/
theorem moves_readTemplate {st : LexState} {fs : List Frame} (hst : st.frames = .template :: fs)
    (cs : Text) : (readTemplate st cs).Moves st := by
  unfold readTemplate
  split
  · intro outer houter
    unfold LexState.stack at houter
    rw [hst] at houter
    injection houter with _ houter
    rw [← houter]
    show (st.frames.drop 1).map Frame.delimiter = _
    rw [hst]
    rfl
  · rfl
  · unfold Piece.Moves
    dsimp only
    split <;> rfl

theorem moves_closeElement {st : LexState} {f : Frame} {fs : List Frame}
    (hst : st.frames = f :: fs) (outer : List Delimiter) (h : st.stack = .element :: outer) :
    st.pop.afterOperand.stack = outer := by
  unfold LexState.stack at h
  rw [hst] at h
  injection h with _ houter
  rw [← houter]
  show (st.frames.drop 1).map Frame.delimiter = _
  rw [hst]
  rfl

theorem moves_readChildren {st : LexState} {fs : List Frame} (hst : st.frames = .children :: fs)
    (cs : Text) : (readChildren st cs).Moves st := by
  unfold readChildren
  split
  · split
    · exact moves_closeElement hst
    · exact moves_readElementStart st _
  · rfl
  · rfl

/-- A tag stays an open element wherever in it the lexer is. -/
theorem stack_replace {st : LexState} {place : TagPlace} {fs : List Frame}
    (hst : st.frames = .tag place :: fs) {f : Frame} (hf : f.delimiter = .element) :
    (st.replace f).stack = st.stack := by
  show (f :: st.frames.drop 1).map Frame.delimiter = st.frames.map Frame.delimiter
  rw [hst]
  show f.delimiter :: fs.map Frame.delimiter = .element :: fs.map Frame.delimiter
  rw [hf]

theorem moves_readTag {st : LexState} {place : TagPlace} {fs : List Frame}
    (hst : st.frames = .tag place :: fs) (cs : Text) : (readTag st place cs).Moves st := by
  have hbetween : (st.replace (.tag .attributes)).stack = st.stack := stack_replace hst rfl
  unfold readTag
  split
  · rfl
  · rename_i c rest
    refine Piece.moves_ite (fun _ => rfl) fun _ => ?_
    refine Piece.moves_ite (fun _ => stack_replace hst rfl) fun _ => ?_
    refine Piece.moves_ite (fun _ => ?_) fun _ => ?_
    · split
      · exact moves_readSlash st _
      · exact moves_readSlash st _
      · split
        · exact moves_closeElement hst
        · exact hbetween
    refine Piece.moves_ite (fun _ => ?_) fun _ => ?_
    · show Delimiter.container :: (st.replace (.tag .attributes)).stack = _
      rw [hbetween]
    refine Piece.moves_ite (fun _ => stack_replace hst rfl) fun _ => ?_
    refine Piece.moves_ite (fun _ => ?_) fun _ => ?_
    · unfold Piece.Moves
      dsimp only
      split <;> exact hbetween
    refine Piece.moves_ite (fun _ => ?_) fun _ => ?_
    · refine Piece.moves_ite (fun _ => ?_) fun _ => hbetween
      have hstart := moves_readElementStart (st.replace (.tag .attributes)) (c :: rest)
      unfold Piece.Moves at hstart ⊢
      rw [hbetween] at hstart
      exact hstart
    refine Piece.moves_ite (fun _ => ?_) fun _ => hbetween
    unfold readTagWord Piece.Moves
    dsimp only
    split
    · exact hbetween
    · refine ⟨?_, hbetween⟩
      unfold LexState.stack
      rw [hst]
      rfl

/-- **Every piece moves the stack as its kind says.** -/
theorem moves_read (d : Dialect) (colon : Bool) (st : LexState) (cs : Text) :
    (read d colon st cs).Moves st := by
  unfold read
  split
  · rename_i hst
    exact moves_readTemplate hst cs
  · rename_i hst
    exact moves_readChildren hst cs
  · rename_i hst
    exact moves_readTag hst cs
  · exact moves_readCode d colon st cs

theorem tracked_lexFrom (d : Dialect) (fuel : Nat) : ∀ (colon : Bool) (st : LexState) (pos : Nat)
    (cs : Text), Tracked st.stack (lexFrom d fuel colon st pos cs) := by
  induction fuel with
  | zero =>
      intro colon st pos cs
      trivial
  | succ fuel ih =>
      intro colon st pos cs
      cases cs with
      | nil => trivial
      | cons c cs =>
          have hmoves := moves_read d colon st (c :: cs)
          unfold Piece.Moves at hmoves
          rw [lexFrom]
          split
          · rename_i hnone
            rw [hnone] at hmoves
            have hsame : (read d colon st (c :: cs)).state.stack = st.stack := hmoves
            rw [← hsame]
            exact ih _ _ _ _
          · rename_i kind hkind
            rw [hkind] at hmoves
            exact ⟨_, hmoves, ih _ _ _ _⟩

/-- The lexemes of a script follow a stack that is empty at first. -/
theorem tracked_lex (d : Dialect) (source : Text) : Tracked [] (lex d source) :=
  tracked_lexFrom d source.length false {} _ _

end ClassSort.Script
