import Mathlib.Algebra.Order.Ring.GeomSum
import ClassSort.Proofs.VariantBits

/-!
# Sets of bits compare like binary numbers

A set of variant bits is kept as the list of its bits from the highest down, and two sets are
compared by comparing the lists. Here that is shown to be the comparison of the numbers with those
binary digits, however long the lists are: **the first bit in which two lists differ outweighs
everything behind it**, because all lower bits together stay below it. A list that goes on where
the other one ends has a bit more, and so is the larger number too.

The order in which bits are given and their repetitions are gone by then. Sorting and dropping
repetitions keep the bits, and the number counts each of them once.
-/

namespace ClassSort.VariantOrder

/-- The number with the given binary digits, each of them counted once. -/
def number (bits : List Nat) : Nat := ∑ b ∈ bits.toFinset, 2 ^ b

/-- From the highest bit down, and no bit twice. -/
def Descends (l : List Nat) : Prop := l.Pairwise fun a b => b < a

/-! ## The bits of a set -/

theorem mem_dropRepeats {a : Nat} {l : List Nat} : a ∈ dropRepeats l ↔ a ∈ l := by
  refine ⟨mem_of_mem_dropRepeats, ?_⟩
  induction l with
  | nil => exact id
  | cons b l ih =>
      cases l with
      | nil => exact id
      | cons c l =>
          intro ha
          rw [dropRepeats]
          split
          · -- `b` is dropped, and it is the first of the rest
            rename_i hbc
            refine ih ?_
            rcases List.mem_cons.mp ha with rfl | ha
            · exact hbc ▸ List.mem_cons_self
            · exact ha
          · rcases List.mem_cons.mp ha with rfl | ha
            · exact List.mem_cons_self
            · exact List.mem_cons_of_mem b (ih ha)

theorem descends_dropRepeats {l : List Nat} (h : l.Pairwise fun a b => b ≤ a) :
    Descends (dropRepeats l) := by
  induction l with
  | nil => exact .nil
  | cons a l ih =>
      cases l with
      | nil => exact List.pairwise_singleton _ _
      | cons b l =>
          obtain ⟨hfirst, hrest⟩ := List.pairwise_cons.mp h
          rw [dropRepeats]
          split
          · exact ih hrest
          · rename_i hab
            refine List.pairwise_cons.mpr ⟨?_, ih hrest⟩
            intro c hc
            -- `b` is the highest of the rest, and `a` is not `b`
            have hba := hfirst b List.mem_cons_self
            rcases List.mem_cons.mp (mem_of_mem_dropRepeats hc) with rfl | hc
            · omega
            · have hcb := (List.pairwise_cons.mp hrest).1 c hc
              omega

theorem mem_ofBits {a : Nat} {bits : List Nat} : a ∈ (ofBits bits).bits ↔ a ∈ bits :=
  mem_dropRepeats.trans List.mem_mergeSort

theorem descends_ofBits (bits : List Nat) : Descends (ofBits bits).bits := by
  refine descends_dropRepeats ((List.pairwise_mergeSort ?_ ?_ bits).imp of_decide_eq_true)
  · intro a b c hab hbc
    simp only [decide_eq_true_eq] at hab hbc ⊢
    omega
  · intro a b
    simp only [Bool.or_eq_true, decide_eq_true_eq]
    omega

/-! ## Their number -/

theorem number_congr {l m : List Nat} (h : ∀ b, b ∈ l ↔ b ∈ m) : number l = number m := by
  have hset : l.toFinset = m.toFinset := by
    ext b
    rw [List.mem_toFinset, List.mem_toFinset]
    exact h b
  unfold number
  rw [hset]

/-- A set and its bits have the same number. -/
theorem number_ofBits (bits : List Nat) : number (ofBits bits).bits = number bits :=
  number_congr fun _ => mem_ofBits

theorem number_cons {a : Nat} {l : List Nat} (h : ∀ b ∈ l, b < a) :
    number (a :: l) = 2 ^ a + number l := by
  have hnew : a ∉ l.toFinset := by
    intro ha
    exact absurd (h a (List.mem_toFinset.mp ha)) (Nat.lt_irrefl a)
  unfold number
  rw [List.toFinset_cons, Finset.sum_insert hnew]

/-- All bits below one stay together below it. -/
theorem number_lt {a : Nat} {l : List Nat} (h : ∀ b ∈ l, b < a) : number l < 2 ^ a := by
  refine Nat.geomSum_lt (Nat.le_refl 2) ?_
  intro b hb
  exact h b (List.mem_toFinset.mp hb)

/-- The list with the higher first bit is the larger number. -/
theorem number_lt_number {a b : Nat} {l m : List Nat} (hab : a < b) (hl : ∀ c ∈ l, c < a) :
    number (a :: l) < number (b :: m) := by
  have hbelow : ∀ c ∈ a :: l, c < b := by
    intro c hc
    rcases List.mem_cons.mp hc with rfl | hc
    · exact hab
    · exact Nat.lt_trans (hl c hc) hab
  have hb : b ∈ (b :: m).toFinset := List.mem_toFinset.mpr List.mem_cons_self
  calc number (a :: l) < 2 ^ b := number_lt hbelow
    _ ≤ number (b :: m) := Finset.single_le_sum (f := fun c => 2 ^ c) (fun _ _ => Nat.zero_le _) hb

/-- **Lists of bits from the highest down compare like their numbers.** -/
theorem compare_number {l m : List Nat} (hl : Descends l) (hm : Descends m) :
    compare l m = compare (number l) (number m) := by
  rw [List.compare_eq_compareLex]
  -- along the common front of the two lists, up to the first difference or the end of one
  induction l generalizing m with
  | nil =>
      cases m with
      | nil => rfl
      | cons b m =>
          have hpos : number [] < number (b :: m) := by
            rw [number_cons (List.pairwise_cons.mp hm).1]
            exact Nat.add_pos_left (Nat.two_pow_pos b) _
          rw [Nat.compare_eq_lt.mpr hpos]
          rfl
  | cons a l ih =>
      obtain ⟨hal, hrest⟩ := List.pairwise_cons.mp hl
      cases m with
      | nil =>
          have hpos : number [] < number (a :: l) := by
            rw [number_cons hal]
            exact Nat.add_pos_left (Nat.two_pow_pos a) _
          rw [Nat.compare_eq_gt.mpr hpos]
          rfl
      | cons b m =>
          obtain ⟨hbm, hrest'⟩ := List.pairwise_cons.mp hm
          rw [List.compareLex_cons_cons]
          rcases Nat.lt_trichotomy a b with hab | rfl | hba
          · rw [Nat.compare_eq_lt.mpr hab, Nat.compare_eq_lt.mpr (number_lt_number hab hal)]
            rfl
          · rw [ih hrest hrest', number_cons hal, number_cons hbm, Nat.compare_eq_eq.mpr rfl]
            simp only [Nat.compare_eq_ite_lt, Nat.add_lt_add_iff_left]
            rfl
          · rw [Nat.compare_eq_gt.mpr hba, Nat.compare_eq_gt.mpr (number_lt_number hba hbm)]
            rfl

/--
**Variants compare like binary numbers.**

Two sets of bits stand in the order of the numbers in which exactly those binary digits are set,
and they are the same set if and only if the same bits were given, in whatever order and however
often.
-/
theorem variants_compare_as_numbers (as bs : List Nat) :
    compare (ofBits as) (ofBits bs) = compare (number as) (number bs) ∧
    (ofBits as = ofBits bs ↔ ∀ b, b ∈ as ↔ b ∈ bs) := by
  have hcompare : compare (ofBits as) (ofBits bs) = compare (number as) (number bs) := by
    rw [← number_ofBits as, ← number_ofBits bs]
    exact compare_number (descends_ofBits as) (descends_ofBits bs)
  refine ⟨hcompare, ?_, ?_⟩
  · intro heq b
    have has : b ∈ (ofBits as).bits ↔ b ∈ as := mem_ofBits
    have hbs : b ∈ (ofBits bs).bits ↔ b ∈ bs := mem_ofBits
    rw [← has, ← hbs, heq]
  · intro hsame
    rw [number_congr hsame, Nat.compare_eq_eq.mpr rfl] at hcompare
    have hbits : (ofBits as).bits = (ofBits bs).bits :=
      Std.LawfulEqCmp.compare_eq_iff_eq.mp hcompare
    exact congrArg VariantOrder.mk hbits

end ClassSort.VariantOrder
