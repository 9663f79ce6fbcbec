import ClassSort.Proofs.BinaryNumbers
import ClassSort.Proofs.CandidateGrammar
import ClassSort.Proofs.VocabularyExtension

/-!
# What the rank of a class depends on

Of the variants of a class only their set counts, and of its important marks nothing does. Two
classes that differ in the order and the repetitions of their variants, and in the marks around the
same utility, have the same rank, or both have none.

The argument follows a class through the ranking. Its utility is read without the marks
(`parseUtility?_mark`). Its variants are looked up one by one, and all of them must be known, which
is a statement about their set (`mapM_eq_none_iff`); the bits that are found are the bits of that
set (`mem_iff_of_mapM`), and a set of bits has one list from the highest bit down.
-/

namespace ClassSort

/-! ## Variants as a set -/

/-- **The list of a set of bits depends on the set only.** -/
theorem VariantOrder.ofBits_congr {as bs : List Nat} (h : ∀ b, b ∈ as ↔ b ∈ bs) :
    ofBits as = ofBits bs := by
  have hnodup : ∀ l : List Nat, (ofBits l).bits.Nodup := fun l =>
    (descends_ofBits l).imp fun hlt => (Nat.ne_of_lt hlt).symm
  have hperm : (ofBits as).bits.Perm (ofBits bs).bits := by
    refine (List.perm_ext_iff_of_nodup (hnodup as) (hnodup bs)).mpr fun b => ?_
    rw [mem_ofBits, mem_ofBits, h]
  have hbits : (ofBits as).bits = (ofBits bs).bits :=
    hperm.eq_of_pairwise (fun a b _ _ hab hba => absurd hab (Nat.lt_asymm hba))
      (descends_ofBits as) (descends_ofBits bs)
  exact congrArg VariantOrder.mk hbits

variable {α β : Type} {f : α → Option β}

theorem mapM_eq_none_iff {l : List α} : l.mapM f = none ↔ ∃ a ∈ l, f a = none := by
  induction l with
  | nil => simp
  | cons a l ih =>
      simp only [List.mapM_cons, List.mem_cons, exists_eq_or_imp, ← ih]
      cases f a with
      | none => simp
      | some b => cases l.mapM f <;> simp

theorem mem_iff_of_mapM {l : List α} {bs : List β} (h : l.mapM f = some bs) {b : β} :
    b ∈ bs ↔ ∃ a ∈ l, f a = some b := by
  induction l generalizing bs with
  | nil =>
      rw [List.mapM_nil] at h
      obtain rfl := Option.some.inj h
      simp
  | cons a l ih =>
      simp only [List.mapM_cons, Option.bind_eq_bind, Option.bind_eq_some_iff, Option.pure_def,
        Option.some.injEq] at h
      obtain ⟨b', ha, bs', hl, rfl⟩ := h
      simp only [List.mem_cons, exists_eq_or_imp, ih hl, ha, Option.some.injEq]
      rw [eq_comm]

namespace Vocabulary

variable {v : Vocabulary}

/-- **Only the set of the variants counts.** -/
theorem variantOrder?_congr {l m : List Text} (h : ∀ variant, variant ∈ l ↔ variant ∈ m) :
    v.variantOrder? l = v.variantOrder? m := by
  unfold variantOrder?
  cases hl : l.mapM v.variants.bit? with
  | none =>
      -- an unknown variant stands in both lists
      obtain ⟨variant, hmem, hunknown⟩ := mapM_eq_none_iff.mp hl
      rw [mapM_eq_none_iff.mpr ⟨variant, (h variant).mp hmem, hunknown⟩]
  | some bits =>
      cases hm : m.mapM v.variants.bit? with
      | none =>
          obtain ⟨variant, hmem, hunknown⟩ := mapM_eq_none_iff.mp hm
          rw [mapM_eq_none_iff.mpr ⟨variant, (h variant).mpr hmem, hunknown⟩] at hl
          exact absurd hl (by simp)
      | some bits' =>
          have hset : ∀ bit, bit ∈ bits ↔ bit ∈ bits' := by
            intro bit
            rw [mem_iff_of_mapM hl, mem_iff_of_mapM hm]
            simp only [h]
          rw [Option.map_some, Option.map_some, VariantOrder.ofBits_congr hset]

/-! ## The rank -/

/-- The rank of a class, by its variants and by its utility without important marks. -/
theorem rank_of_marked {raw utility : Text} {variants : List Text} {front back : Bool}
    (h : Candidate.split v.separator raw =
      variants ++ [Candidate.mark front '!' ++ utility ++ Candidate.mark back '!'])
    (hfirst : utility.head? ≠ some '!') (hlast : utility.getLast? ≠ some '!') :
    v.rank raw =
      if variants.any (·.isEmpty) then none
      else (Candidate.parseSigned? v.classPrefix utility).bind fun read =>
        (v.variantOrder? variants).bind fun order =>
          (v.origin? read.1 read.2).map (key order) := by
  unfold rank
  rw [Candidate.parse?_of_split h, Candidate.parseUtility?_mark hfirst hlast]
  split
  · rfl
  · cases Candidate.parseSigned? v.classPrefix utility with
    | none => rfl
    | some read =>
        show (v.variantOrder? variants).bind _ = (v.variantOrder? variants).bind _
        congr 1
        funext order
        show (v.origin? read.1 read.2).bind _ = _
        cases v.origin? read.1 read.2 <;> rfl

/--
**The rank of a class does not depend on how it is spelled.**

Let two classes be split into the same set of variants, in any order and with any repetitions, and
let their utilities be the same text with important marks around it or not, where that text has no
such mark of its own at either end. Then the classes have the same rank under every configuration,
or neither is recognized.
-/
theorem rank_of_any_spelling (c : Config) (a b utility : Text) (variants variants' : List Text)
    (front back front' back' : Bool)
    (ha : Candidate.split (ofConfig c).separator a =
      variants ++ [Candidate.mark front '!' ++ utility ++ Candidate.mark back '!'])
    (hb : Candidate.split (ofConfig c).separator b =
      variants' ++ [Candidate.mark front' '!' ++ utility ++ Candidate.mark back' '!'])
    (hsame : ∀ variant, variant ∈ variants ↔ variant ∈ variants')
    (hfirst : utility.head? ≠ some '!') (hlast : utility.getLast? ≠ some '!') :
    (ofConfig c).rank a = (ofConfig c).rank b := by
  have hempty : variants.any (·.isEmpty) = variants'.any (·.isEmpty) := by
    rw [Bool.eq_iff_iff, List.any_eq_true, List.any_eq_true]
    simp only [hsame]
  rw [rank_of_marked ha hfirst hlast, rank_of_marked hb hfirst hlast, hempty,
    variantOrder?_congr hsame]

/-- The order of the variants, a repetition and the marks make no difference to this class. -/
theorem rank_of_any_spelling_marked :
    (ofConfig smallConfig).rank "first:marker:p-4!".toList =
        some (key (.ofBits [9, 2]) (.core .utilities 105 0)) ∧
      (ofConfig smallConfig).rank "marker:first:marker:!p-4!".toList =
        some (key (.ofBits [9, 2]) (.core .utilities 105 0)) := by
  have hrank : (ofConfig smallConfig).rank "first:marker:p-4!".toList =
      some (key (.ofBits [9, 2]) (.core .utilities 105 0)) :=
    (recognizes_smallConfig (c := ⟨["first".toList, "marker".toList], "p-4".toList, false, true⟩)
      (by decide +kernel) (by decide +kernel) (by decide +kernel)).rank_eq
  have hsame := rank_of_any_spelling smallConfig "first:marker:p-4!".toList
    "marker:first:marker:!p-4!".toList "p-4".toList ["first".toList, "marker".toList]
    ["marker".toList, "first".toList, "marker".toList] false true true true (by decide) (by decide)
    (by intro variant; simp only [List.mem_cons, List.not_mem_nil]; tauto) (by decide) (by decide)
  exact ⟨hrank, hsame ▸ hrank⟩

end Vocabulary

end ClassSort
