import Mathlib.Data.List.Basic
import ClassSort.Candidate.Basic

/-!
# Splitting outside brackets

A class is split at the separators that stand outside brackets. Three facts carry all that is said
about classes later on:

* **nothing is lost**: the parts with the separator between them are the class again, whatever the
  separator is;
* **nothing is left**: no part holds a separator outside its brackets, so a part is not split again,
  and all parts but the last close their brackets;
* **nothing is cut**: parts that close their brackets, and hold the separator inside them only, come
  back one by one when they are written with a separator of one character.

The splitter runs over the text character by character and keeps the bracket depth. What it does at
one character is said once, in `splitFrom_cases`: it ends a part, or it adds the character to the
part and goes on at the depth behind it. `splitFrom_induction` is the induction that follows it.
-/

namespace ClassSort.Candidate

/-- The bracket depth behind a character. A bracket that closes nothing is passed over. -/
def level (depth : Nat) (c : Char) : Nat :=
  if opens c then depth + 1 else if closes c then depth - 1 else depth

/-- The bracket depth behind a text. -/
def depth (cs : Text) : Nat := cs.foldl level 0

/-- Whether a character is neither an opening nor a closing bracket. -/
def isPlain (c : Char) : Bool := !opens c && !closes c

/-- A text that closes its brackets and holds the separator only inside them. -/
structure Whole (sep : Char) (cs : Text) : Prop where
  closed : depth cs = 0
  inside : ∀ i < cs.length, cs[i]? = some sep → 0 < depth (cs.take i)

theorem level_of_isPlain {c : Char} (h : isPlain c = true) (d : Nat) : level d c = d := by
  simp only [isPlain, Bool.and_eq_true, Bool.not_eq_true'] at h
  rw [level, h.1, h.2]
  rfl

/-! ## One character -/

variable {sep : Text}

/-- Passing over characters is beginning behind them. -/
theorem splitFrom_skip (sep : Text) (d k : Nat) (cs : Text) :
    splitFrom sep d k cs = splitFrom sep d 0 (cs.drop k) := by
  induction cs generalizing k with
  | nil => rw [List.drop_nil]; rfl
  | cons c cs ih =>
      cases k with
      | zero => rfl
      | succ k =>
          rw [splitFrom, if_pos (Nat.succ_pos k), Nat.add_sub_cancel, List.drop_succ_cons]
          exact ih k

/-- **What the splitter does at a character.** Outside brackets it ends a part at a separator, and
otherwise it adds the character to the part. -/
theorem splitFrom_cases (hsep : sep ≠ []) (d : Nat) (c : Char) (cs : Text) :
    (isPlain c = true ∧ d = 0 ∧ ∃ rest, c :: cs = sep ++ rest ∧
      splitFrom sep d 0 (c :: cs) = [] :: splitFrom sep 0 0 rest) ∨
    ((isPlain c = true → d = 0 → ¬ sep <+: c :: cs) ∧
      splitFrom sep d 0 (c :: cs) = onto c (splitFrom sep (level d c) 0 cs)) := by
  rw [splitFrom, if_neg (Nat.lt_irrefl 0)]
  by_cases hopens : opens c = true
  · refine .inr ⟨fun hplain => ?_, ?_⟩
    · simp [isPlain, hopens] at hplain
    · rw [if_pos hopens, level, if_pos hopens]
  by_cases hcloses : closes c = true
  · refine .inr ⟨fun hplain => ?_, ?_⟩
    · simp [isPlain, hcloses] at hplain
    · rw [if_neg hopens, if_pos hcloses, level, if_neg hopens, if_pos hcloses]
  rw [if_neg hopens, if_neg hcloses, level, if_neg hopens, if_neg hcloses]
  have hbegins : sep.isPrefixOf (c :: cs) = true ↔ sep <+: c :: cs := List.isPrefixOf_iff_prefix
  by_cases hhere : d = 0 ∧ sep <+: c :: cs
  · obtain ⟨rfl, hfront⟩ := hhere
    rw [if_pos (by simp [hbegins.mpr hfront])]
    obtain ⟨rest, hrest⟩ := hfront
    refine .inl ⟨by simp [isPlain, hopens, hcloses], rfl, rest, hrest.symm, ?_⟩
    obtain ⟨s, sep, rfl⟩ := List.exists_cons_of_ne_nil hsep
    rw [List.cons_append] at hrest
    obtain ⟨rfl, rfl⟩ := List.cons.inj hrest
    rw [if_neg (by simp), splitFrom_skip, List.length_cons, Nat.add_sub_cancel, List.drop_left]
  · refine .inr ⟨fun _ hd hfront => hhere ⟨hd, hfront⟩, if_neg ?_⟩
    rw [Bool.and_eq_true, decide_eq_true_eq, hbegins]
    exact hhere

/-- **Induction along the splitter.** A separator is passed over as a whole, so this is an induction
on the length. -/
theorem splitFrom_induction (hsep : sep ≠ []) {motive : Nat → Text → Prop}
    (nil : ∀ d, motive d [])
    (cut : ∀ c cs rest, c :: cs = sep ++ rest →
      splitFrom sep 0 0 (c :: cs) = [] :: splitFrom sep 0 0 rest → motive 0 rest →
      motive 0 (c :: cs))
    (keep : ∀ d c cs, (isPlain c = true → d = 0 → ¬ sep <+: c :: cs) →
      splitFrom sep d 0 (c :: cs) = onto c (splitFrom sep (level d c) 0 cs) →
      motive (level d c) cs → motive d (c :: cs))
    (d : Nat) (cs : Text) : motive d cs := by
  induction hlen : cs.length using Nat.strongRecOn generalizing d cs with
  | ind n ih =>
      cases cs with
      | nil => exact nil d
      | cons c cs =>
          rcases splitFrom_cases hsep d c cs with ⟨-, rfl, rest, hrest, heq⟩ | ⟨hnone, heq⟩
          · have hshorter : rest.length < n := by
              rw [← hlen, hrest, List.length_append]
              exact Nat.lt_add_of_pos_left (List.length_pos_of_ne_nil hsep)
            exact cut c cs rest hrest heq (ih _ hshorter 0 rest rfl)
          · have hshorter : cs.length < n := hlen ▸ Nat.lt_succ_self _
            exact keep d c cs hnone heq (ih _ hshorter _ cs rfl)

/-! ## Nothing is lost -/

theorem onto_ne_nil (c : Char) (parts : List Text) : onto c parts ≠ [] := by
  cases parts <;> exact List.cons_ne_nil _ _

theorem splitFrom_ne_nil (hsep : sep ≠ []) (d : Nat) (cs : Text) : splitFrom sep d 0 cs ≠ [] := by
  cases cs with
  | nil => exact List.cons_ne_nil _ _
  | cons c cs =>
      rcases splitFrom_cases hsep d c cs with ⟨-, -, rest, -, heq⟩ | ⟨-, heq⟩
      · rw [heq]
        exact List.cons_ne_nil _ _
      · rw [heq]
        exact onto_ne_nil _ _

theorem join_onto (c : Char) {parts : List Text} (h : parts ≠ []) :
    Text.join sep (onto c parts) = c :: Text.join sep parts := by
  obtain ⟨p, ps, rfl⟩ := List.exists_cons_of_ne_nil h
  unfold Text.join
  cases ps with
  | nil => rw [onto, List.intercalate_singleton, List.intercalate_singleton]
  | cons q ps => rw [onto, List.intercalate_cons_cons, List.intercalate_cons_cons]; rfl

theorem join_splitFrom (hsep : sep ≠ []) (d : Nat) (cs : Text) :
    Text.join sep (splitFrom sep d 0 cs) = cs := by
  induction d, cs using splitFrom_induction hsep with
  | nil d => rfl
  | cut c cs rest hrest heq ih =>
      unfold Text.join at ih ⊢
      rw [heq, List.intercalate_cons_of_ne_nil (splitFrom_ne_nil hsep 0 rest), ih, hrest]
      rfl
  | keep d c cs _ heq ih => rw [heq, join_onto c (splitFrom_ne_nil hsep _ _), ih]

/-- **The parts with the separator between them are the text.** -/
theorem join_split (hsep : sep ≠ []) (raw : Text) : Text.join sep (split sep raw) = raw :=
  join_splitFrom hsep 0 raw

theorem join_concat (sep : Text) (variants : List Text) (utility : Text) :
    Text.join sep (variants ++ [utility]) = variants.flatMap (· ++ sep) ++ utility := by
  unfold Text.join
  induction variants with
  | nil => exact List.intercalate_singleton
  | cons v variants ih =>
      rw [List.cons_append, List.intercalate_cons_of_ne_nil (by simp), ih, List.flatMap_cons,
        List.append_assoc (v ++ sep)]

/-- Every class is its variants, each with the separator behind it, and its utility. -/
theorem exists_split (hsep : sep ≠ []) (raw : Text) :
    ∃ variants utility, split sep raw = variants ++ [utility] ∧
      raw = variants.flatMap (· ++ sep) ++ utility := by
  have hne : split sep raw ≠ [] := splitFrom_ne_nil hsep 0 raw
  refine ⟨(split sep raw).dropLast, (split sep raw).getLast hne, ?_, ?_⟩
  · exact (List.dropLast_concat_getLast hne).symm
  · rw [← join_concat, List.dropLast_concat_getLast hne, join_split hsep]

/-! ## Nothing is left -/

/-- No separator stands outside the brackets of a text that begins at some depth. -/
def UncutFrom (sep : Text) (d : Nat) (cs : Text) : Prop :=
  ∀ i c, cs[i]? = some c → isPlain c = true → (cs.take i).foldl level d = 0 → ¬ sep <+: cs.drop i

/-- A text with no separator outside its brackets. -/
def Uncut (sep cs : Text) : Prop := UncutFrom sep 0 cs

theorem uncutFrom_nil (sep : Text) (d : Nat) : UncutFrom sep d [] := by
  intro i c hget
  exact absurd hget (by simp)

theorem uncutFrom_cons {d : Nat} {c : Char} {cs : Text} :
    UncutFrom sep d (c :: cs) ↔
      (isPlain c = true → d = 0 → ¬ sep <+: c :: cs) ∧ UncutFrom sep (level d c) cs := by
  constructor
  · intro h
    exact ⟨h 0 c rfl, fun i => h (i + 1)⟩
  · rintro ⟨hfirst, hrest⟩ i c' hget
    cases i with
    | zero =>
        obtain rfl := Option.some.inj hget
        exact hfirst
    | succ i => exact hrest i c' hget

/-- A text without such separators is one part. -/
theorem splitFrom_of_uncutFrom (hsep : sep ≠ []) {d : Nat} {cs : Text} (h : UncutFrom sep d cs) :
    splitFrom sep d 0 cs = [cs] := by
  induction cs generalizing d with
  | nil => rfl
  | cons c cs ih =>
      obtain ⟨hfirst, hrest⟩ := uncutFrom_cons.mp h
      rcases splitFrom_cases hsep d c cs with ⟨hplain, hd, rest, hcut, -⟩ | ⟨-, heq⟩
      · exact absurd ⟨rest, hcut.symm⟩ (hfirst hplain hd)
      · rw [heq, ih hrest]
        rfl

/-- What the splitter makes of a text from some depth on: a first part that begins there, and others
that begin outside brackets. -/
structure Parts (sep : Text) (d : Nat) (cs p : Text) (ps : List Text) : Prop where
  front : p <+: cs
  first : UncutFrom sep d p
  closed : ps ≠ [] → p.foldl level d = 0
  others : ∀ q ∈ ps, Uncut sep q
  othersClosed : ∀ q ∈ ps.dropLast, depth q = 0

theorem exists_parts (hsep : sep ≠ []) (d : Nat) (cs : Text) :
    ∃ p ps, splitFrom sep d 0 cs = p :: ps ∧ Parts sep d cs p ps := by
  induction d, cs using splitFrom_induction hsep with
  | nil d => exact ⟨[], [], rfl, List.prefix_rfl, uncutFrom_nil sep d, by simp, by simp, by simp⟩
  | cut c cs rest hrest heq ih =>
      obtain ⟨p, ps, hsplit, hparts⟩ := ih
      refine ⟨[], p :: ps, by rw [heq, hsplit], List.nil_prefix, uncutFrom_nil sep 0,
        fun _ => rfl, List.forall_mem_cons.mpr ⟨hparts.first, hparts.others⟩, ?_⟩
      intro q hq
      cases ps with
      | nil => exact absurd hq (by simp)
      | cons p' ps =>
          rcases List.mem_cons.mp hq with rfl | hq
          · exact hparts.closed (by simp)
          · exact hparts.othersClosed q hq
  | keep d c cs hnone heq ih =>
      obtain ⟨p, ps, hsplit, hparts⟩ := ih
      have hfront : c :: p <+: c :: cs := List.cons_prefix_cons.mpr ⟨rfl, hparts.front⟩
      refine ⟨c :: p, ps, by rw [heq, hsplit]; rfl, hfront, ?_, hparts.closed, hparts.others,
        hparts.othersClosed⟩
      -- a separator inside the part would be one of the text
      exact uncutFrom_cons.mpr
        ⟨fun hplain hd hcut => hnone hplain hd (hcut.trans hfront), hparts.first⟩

theorem uncut_of_mem_split (hsep : sep ≠ []) {raw part : Text} (h : part ∈ split sep raw) :
    Uncut sep part := by
  obtain ⟨p, ps, hsplit, hparts⟩ := exists_parts hsep 0 raw
  rw [split, hsplit] at h
  rcases List.mem_cons.mp h with rfl | h
  · exact hparts.first
  · exact hparts.others part h

theorem depth_of_mem_dropLast_split (hsep : sep ≠ []) {raw part : Text}
    (h : part ∈ (split sep raw).dropLast) : depth part = 0 := by
  obtain ⟨p, ps, hsplit, hparts⟩ := exists_parts hsep 0 raw
  rw [split, hsplit] at h
  cases ps with
  | nil => exact absurd h (by simp)
  | cons p' ps =>
      rcases List.mem_cons.mp h with rfl | h
      · exact hparts.closed (by simp)
      · exact hparts.othersClosed part h

/-- **Splitting loses nothing and leaves nothing to split.** The parts with the separator between
them are the text, and each of them is one part by itself. They hold the separator inside brackets
only, which all of them close but perhaps the last. -/
theorem parts_join_and_stay {sep : Text} (hsep : sep ≠ []) (raw : Text) :
    Text.join sep (split sep raw) = raw ∧
    (∀ part ∈ split sep raw, split sep part = [part] ∧ Uncut sep part) ∧
    ∀ part ∈ (split sep raw).dropLast, depth part = 0 := by
  refine ⟨join_split hsep raw, fun part hpart => ?_, fun part => depth_of_mem_dropLast_split hsep⟩
  have huncut := uncut_of_mem_split hsep hpart
  exact ⟨splitFrom_of_uncutFrom hsep huncut, huncut⟩

/-- A separator that overlaps itself, and that stands in brackets as well. -/
theorem parts_join_and_stay_overlapping :
    split "::".toList "[x::y]:::(z".toList = ["[x::y]".toList, ":(z".toList] ∧
    split "::".toList "[x::y]".toList = ["[x::y]".toList] ∧
    split "::".toList ":(z".toList = [":(z".toList] := by
  have hsplit : split "::".toList "[x::y]:::(z".toList = ["[x::y]".toList, ":(z".toList] := by
    decide
  obtain ⟨-, hparts, -⟩ := @parts_join_and_stay "::".toList (by decide) "[x::y]:::(z".toList
  rw [hsplit] at hparts
  exact ⟨hsplit, (hparts _ (by simp)).1, (hparts _ (by simp)).1⟩

/-! ## Nothing is cut -/

variable {s : Char}

/-- Puts a text in front of the first part. -/
theorem foldr_onto (a p : Text) (ps : List Text) : a.foldr onto (p :: ps) = (a ++ p) :: ps := by
  induction a with
  | nil => rfl
  | cons c a ih => rw [List.foldr_cons, ih]; rfl

/-- A text with the separator only inside brackets goes into one part. -/
theorem splitFrom_append {a : Text} {d : Nat}
    (h : ∀ i < a.length, a[i]? = some s → 0 < (a.take i).foldl level d) (rest : Text) :
    splitFrom [s] d 0 (a ++ rest) = a.foldr onto (splitFrom [s] (a.foldl level d) 0 rest) := by
  induction a generalizing d with
  | nil => rfl
  | cons c a ih =>
      rw [List.cons_append, List.foldr_cons, List.foldl_cons]
      rcases splitFrom_cases (List.cons_ne_nil s []) d c (a ++ rest) with
        ⟨-, rfl, behind, hbehind, -⟩ | ⟨-, heq⟩
      · -- a separator at depth zero
        obtain ⟨rfl, -⟩ := List.cons.inj hbehind
        exact absurd (h 0 (Nat.succ_pos _) rfl) (Nat.lt_irrefl 0)
      · rw [heq, ih]
        intro i hi hget
        exact h (i + 1) (Nat.succ_lt_succ hi) hget

theorem splitFrom_separator (h : isPlain s = true) (rest : Text) :
    splitFrom [s] 0 0 (s :: rest) = [] :: splitFrom [s] 0 0 rest := by
  rcases splitFrom_cases (List.cons_ne_nil s []) 0 s rest with
    ⟨-, -, behind, hbehind, heq⟩ | ⟨hnone, -⟩
  · obtain ⟨-, rfl⟩ := List.cons.inj hbehind
    exact heq
  · exact absurd ⟨rest, rfl⟩ (hnone h rfl)

/-- **Whole parts come back as they were written.** -/
theorem split_join (hs : isPlain s = true) {variants : List Text} {utility : Text}
    (hvariants : ∀ v ∈ variants, Whole s v) (hutility : Whole s utility) :
    split [s] (variants.flatMap (· ++ [s]) ++ utility) = variants ++ [utility] := by
  unfold split
  induction variants with
  | nil =>
      have hone := splitFrom_append hutility.inside []
      rw [List.append_nil] at hone
      rw [List.flatMap_nil, List.nil_append, hone]
      show utility.foldr onto [[]] = _
      rw [foldr_onto, List.append_nil]
      rfl
  | cons v variants ih =>
      obtain ⟨hv, hrest⟩ := List.forall_mem_cons.mp hvariants
      rw [List.flatMap_cons, List.append_assoc, List.append_assoc, List.singleton_append,
        splitFrom_append hv.inside]
      show v.foldr onto (splitFrom [s] (depth v) 0 _) = _
      rw [hv.closed, splitFrom_separator hs, foldr_onto, ih hrest, List.append_nil]
      rfl

/-! ## Whole texts -/

theorem depth_append {a : Text} (h : depth a = 0) (b : Text) : depth (a ++ b) = depth b := by
  unfold depth at h ⊢
  rw [List.foldl_append, h]

theorem Whole.append {a b : Text} (ha : Whole s a) (hb : Whole s b) : Whole s (a ++ b) := by
  refine ⟨(depth_append ha.closed b).trans hb.closed, ?_⟩
  intro i hi hget
  rcases Nat.lt_or_ge i a.length with hlt | hge
  · rw [List.getElem?_append_left hlt] at hget
    rw [List.take_append_of_le_length (Nat.le_of_lt hlt)]
    exact ha.inside i hlt hget
  · rw [List.getElem?_append_right hge] at hget
    rw [List.take_append, List.take_of_length_le hge, depth_append ha.closed]
    rw [List.length_append] at hi
    exact hb.inside _ (by omega) hget

theorem Whole.uncut {cs : Text} (h : Whole s cs) : Uncut [s] cs := by
  rintro i c hget - hdepth ⟨rest, hrest⟩
  have hsep : cs[i]? = some s := by
    rw [← List.head?_drop, ← hrest]
    rfl
  obtain ⟨hi, -⟩ := List.getElem?_eq_some_iff.mp hsep
  exact Nat.ne_of_gt (h.inside i hi hsep) hdepth

/-- A text without brackets and without the separator is whole. -/
theorem whole_of_isPlain {cs : Text} (h : ∀ c ∈ cs, isPlain c = true ∧ c ≠ s) : Whole s cs := by
  constructor
  · unfold depth
    induction cs with
    | nil => rfl
    | cons c cs ih =>
        rw [List.foldl_cons, level_of_isPlain (h c List.mem_cons_self).1]
        exact ih fun d hd => h d (List.mem_cons_of_mem c hd)
  · intro i hi hget
    exact absurd rfl (h s (List.mem_of_getElem? hget)).2

end ClassSort.Candidate
