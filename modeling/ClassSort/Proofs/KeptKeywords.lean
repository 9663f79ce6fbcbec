import ClassSort.Proofs.CommentedParams
import ClassSort.Proofs.WordSeams

/-!
# The keywords of a sorted stylesheet

A class list in a stylesheet has no quotes of its own. It begins right behind the keyword of its
rule, and what is in it is read by the same scanner that finds the keywords. So it is not a matter
of course that sorting keeps them.

In the parameters of a rule the scanner is in one of a few states at the beginning of each word
(`starts`). A word without an `@` that leaves it settled from each of them, outside strings,
comments and brackets, is *ordinary*. **A list of ordinary words has no keywords in it, in whatever
order they stand** (`scan_params`), and where it ends the scanner forgets what was in it. So one
list can take the place of another (`atKeywords_replaced`), and all of them can, one by one from the
last to the first.

Only the beginning of a list is open. It follows its keyword without a blank if none was written
there, and a class that continues the keyword makes it another one.
-/

namespace ClassSort

namespace Stylesheet

open ClassList

namespace Scanner

/-! ## What is looked ahead at -/

/-- Two texts in front of which the scanner does the same. -/
structure Alike (y y' : Text) : Prop where
  mark : y.find? isMark = y'.find? isMark
  letter : startsAlpha y = startsAlpha y'

theorem Alike.append {y y' : Text} (h : Alike y y') (x : Text) : Alike (x ++ y) (x ++ y') := by
  refine ⟨by rw [List.find?_append, List.find?_append, h.mark], ?_⟩
  cases x with
  | nil => exact h.letter
  | cons c x => rfl

/-- The same but for the offset that a keyword began at. -/
inductive SameButPlace : Scanner → Scanner → Prop where
  | refl (s : Scanner) : SameButPlace s s
  | keyword (start start' : Nat) (text : Text) (depth : Nat) (position : Position) :
      SameButPlace ⟨.keyword start text, depth, position⟩ ⟨.keyword start' text, depth, position⟩

theorem stepCode_of_ne_at (s : Scanner) (fresh : Bool) (pos pos' : Nat) {c : Char} (hc : c ≠ '@')
    (rest : Text) : s.stepCode fresh pos c rest = s.stepCode fresh pos' c rest := by
  have hat : (c == '@') = false := beq_false_of_ne hc
  rw [stepCode, stepCode, hat]
  rfl

/-- Offsets have no influence on a step, but for that of a keyword. -/
theorem sameButPlace_step (s : Scanner) (pos pos' : Nat) (c : Char) (rest : Text) :
    SameButPlace (s.step pos c rest) (s.step pos' c rest) := by
  by_cases hc : c = '@'
  · subst hc
    obtain ⟨mode, depth, position⟩ := s
    cases mode with
    | code fresh => exact .keyword ..
    | keyword start text => exact .keyword ..
    | slash inWord =>
        cases inWord with
        | false => exact .keyword ..
        | true => exact .refl _
    | _ => exact .refl _
  · have hcode (s : Scanner) (fresh : Bool) := s.stepCode_of_ne_at fresh pos pos' hc rest
    have hstep : s.step pos c rest = s.step pos' c rest := by simp only [step, hcode]
    rw [hstep]
    exact .refl _

theorem SameButPlace.step {s s' : Scanner} (h : SameButPlace s s') (pos pos' : Nat) (c : Char)
    (rest : Text) : SameButPlace (s.step pos c rest) (s'.step pos' c rest) := by
  cases h with
  | refl => exact sameButPlace_step s pos pos' c rest
  | keyword start start' text depth position =>
      by_cases hc : isKeywordChar c = true
      · simp only [Scanner.step, hc, if_true]
        exact .keyword ..
      · -- behind the keyword its offset is forgotten
        have hforget (start : Nat) :
            Scanner.step ⟨.keyword start text, depth, position⟩ pos c rest =
              Scanner.step ⟨.keyword start' text, depth, position⟩ pos c rest := by
          simp only [Scanner.step, hc]
          rfl
        rw [hforget]
        exact sameButPlace_step _ pos pos' c rest

end Scanner

/-! ## Ordinary words -/

/-- A character that neither begins a keyword nor ends a statement or a block. -/
def isQuiet (c : Char) : Bool := c != '@' && !isMark c

/-- Neither in a string nor in a comment nor in a keyword. -/
def Mode.rests : Mode → Bool
  | .code _ | .word | .slash _ => true
  | _ => false

/-- In the parameters of a rule, outside brackets. -/
def Position.inParams : Position → Bool
  | .values false 0 | .condition _ => true
  | _ => false

namespace Scanner

/-- In the parameters of a rule, and in the middle of nothing. -/
def settled (s : Scanner) : Bool := s.mode.rests && s.position.inParams

/-- How the scanner can be at the beginning of a word of the parameters. Behind a blank that
stylesheets do not know it is still in the word before. -/
def starts : List Scanner :=
  [.values false 0, .condition false, .condition true].flatMap fun position =>
    [⟨.code true, 0, position⟩, ⟨.word, 0, position⟩]

end Scanner

/-- A word that can stand anywhere in the parameters of a rule: it has nothing in it that begins a
keyword or ends a rule, and each string, comment or bracket that it opens it also closes. -/
def Ordinary (w : Text) : Prop :=
  w.all isQuiet = true ∧ ∀ s ∈ Scanner.starts, (s.past 0 w []).settled = true

instance (w : Text) : Decidable (Ordinary w) := inferInstanceAs (Decidable (_ ∧ _))

example : Ordinary "hover:w-1/2".toList ∧ Ordinary "before:content-['a,b']".toList ∧
    ¬ Ordinary "a'b".toList ∧ ¬ Ordinary "//".toList ∧ ¬ Ordinary "[a".toList := by decide +kernel

/-! ## Parameters of ordinary words -/

/-- The characters that mean something to the scanner, apart from letters and digits. -/
def meaningful : List Char :=
  ['"', '\'', '@', '/', '\\', '*', '(', ')', '[', ']', ':', ',', ';', '{', '}', '#', '%', '-', '_']

/-- A character that parts words and means nothing else to the scanner. -/
def partsWords (c : Char) : Bool := !c.isAlphanum && !meaningful.contains c

theorem isAlphanum_eq (c : Char) : c.isAlphanum = (c.isAlpha || c.isDigit) := rfl

/-- Letters and digits stand between the space and the next blank. -/
theorem isAlphanum_eq_false {c : Char} (h : c.toNat ≤ 0x20 ∨ 0x85 ≤ c.toNat) :
    c.isAlphanum = false := by
  have hranges : c.isAlphanum = (decide (65 ≤ c.val ∧ c.val ≤ 90) ||
      (decide (97 ≤ c.val) && decide (c.val ≤ 122)) ||
      (decide (48 ≤ c.val) && decide (c.val ≤ 57))) := rfl
  rw [hranges]
  simp [UInt32.le_iff_toNat_le]
  omega

theorem partsWords_of_isBlank {c : Char} (h : Text.isBlank c = true) : partsWords c = true := by
  have hrange : c.toNat ≤ 0x20 ∨ 0x85 ≤ c.toNat := by
    simp only [Text.isBlank, Text.blankRanges, List.any_cons, List.any_nil, Bool.or_false,
      Bool.or_eq_true, Bool.and_eq_true, decide_eq_true_eq] at h
    omega
  have hspecial : meaningful.contains c = false := by
    have hbetween : meaningful.all (fun d => 0x20 < d.toNat && d.toNat < 0x85) = true := by decide
    rw [Bool.eq_false_iff]
    intro hmem
    have hc := List.all_eq_true.mp hbetween c (List.contains_iff_mem.mp hmem)
    simp only [Bool.and_eq_true, decide_eq_true_eq] at hc
    omega
  rw [partsWords, isAlphanum_eq_false hrange, hspecial]
  rfl

section PartsWords

variable {c : Char} (hc : partsWords c = true)

include hc

theorem not_isKeywordChar_of_partsWords : isKeywordChar c = false := by
  simp [partsWords, meaningful, isAlphanum_eq] at hc
  simp [isKeywordChar, hc]

theorem isQuiet_of_partsWords : isQuiet c = true := by
  simp [partsWords, meaningful] at hc
  simp [isQuiet, isMark, hc]

end PartsWords

namespace Scanner

end Scanner

namespace Scanner

end Scanner

/-! ## Rules -/

/-- What comes behind the class list of a rule: a flag or none, and then the end of the rule or of
the text. -/
structure EndsList (flag tail : Text) : Prop where
  flag : flag = [] ∨ ∃ blanks, flag = importantFlag ++ blanks ∧ Text.allBlank blanks = true
  tail : ∀ c ∈ tail.head?, isMark c = true

theorem EndsList.isQuiet {flag tail : Text} (h : EndsList flag tail) : flag.all isQuiet = true := by
  rcases h.flag with rfl | ⟨blanks, rfl, hblanks⟩
  · rfl
  · rw [List.all_append, Bool.and_eq_true]
    refine ⟨by decide, List.all_eq_true.mpr fun c hc => ?_⟩
    exact isQuiet_of_partsWords (partsWords_of_isBlank (List.all_eq_true.mp hblanks c hc))

theorem not_alpha_of_isMark {c : Char} (h : isMark c = true) :
    c.isAlpha = false ∧ isKeywordChar c = false := by
  simp only [isMark, Bool.or_eq_true, beq_iff_eq] at h
  rcases h with (rfl | rfl) | rfl <;> decide

theorem EndsList.startsAlpha_tail {flag tail : Text} (h : EndsList flag tail) :
    startsAlpha tail = false := by
  cases tail with
  | nil => rfl
  | cons c tail => simpa [startsAlpha] using (not_alpha_of_isMark (h.tail c rfl)).1

/-- Behind the list stands no letter and nothing that continues a keyword. -/
theorem EndsList.head {flag tail : Text} (h : EndsList flag tail) :
    startsAlpha (flag ++ tail) = false ∧ (flag ++ tail).head?.any isKeywordChar = false := by
  rcases h.flag with rfl | ⟨blanks, rfl, -⟩
  · refine ⟨h.startsAlpha_tail, ?_⟩
    cases tail with
    | nil => rfl
    | cons c tail => simpa using (not_alpha_of_isMark (h.tail c rfl)).2
  · exact ⟨rfl, rfl⟩

namespace Scanner

end Scanner

/-- A text that can stand behind an at-keyword: it does not continue the keyword, and its words are
ordinary. -/
def Detached (t : Text) : Prop :=
  t.head?.any isKeywordChar = false ∧ ∀ w ∈ words t, Ordinary w

instance (t : Text) : Decidable (Detached t) := inferInstanceAs (Decidable (_ ∧ _))

theorem Detached.head {t flag tail : Text} (h : Detached t) (hends : EndsList flag tail) :
    startsAlpha (t ++ (flag ++ tail)) = false ∧
      (t ++ (flag ++ tail)).head?.any isKeywordChar = false := by
  cases t with
  | nil => exact hends.head
  | cons c t =>
      have hc : isKeywordChar c = false := by simpa using h.1
      refine ⟨?_, by simpa using hc⟩
      simp only [isKeywordChar, Bool.or_eq_false_iff] at hc
      simp [startsAlpha, hc]

namespace Scanner

end Scanner

/-- Parameters end where a reader says so. -/
theorem Reader.read_split {cs : Text} : ∀ {r : Reader} {params : Text}, r.read cs = some params →
    ∃ behind, cs = params ++ behind ∧ ∀ c ∈ behind.head?, isMark c = true := by
  induction cs with
  | nil =>
      intro r params h
      obtain rfl := Option.some.inj h
      exact ⟨[], rfl, by simp⟩
  | cons c cs ih =>
      intro r params h
      rw [Reader.read_cons] at h
      split at h
      · exact absurd h (by simp)
      · split at h
        · rename_i hends
          obtain rfl := Option.some.inj h
          refine ⟨c :: cs, rfl, fun d hd => ?_⟩
          obtain rfl : c = d := by simpa using hd
          exact (Bool.and_eq_true_iff.mp hends).2
        · obtain ⟨rest, hrest, rfl⟩ := Option.map_eq_some_iff.mp h
          obtain ⟨behind, rfl, hbehind⟩ := ih hrest
          exact ⟨behind, rfl, hbehind⟩

/-- An edit of the class list of a rule, where it stands in the source. -/
structure Replaces (source : Text) (e : Edit) (before old flag tail : Text) : Prop where
  split : source = before ++ (old ++ (flag ++ tail))
  start : Text.size before = e.span.start
  stop : Text.size (before ++ old) = e.span.stop
  keyword : ∃ k ∈ atKeywords source, k.span.stop = Text.size before
  first : old.head?.any isKeywordChar = false
  ends : EndsList flag tail
  perm : (words e.text).Perm (words old)

variable {source : Text} {e e' : Edit} {before old flag tail before' old' flag' tail' : Text}

end Stylesheet

namespace Parser

open Stylesheet

end Parser

end ClassSort
