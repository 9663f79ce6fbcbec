import ClassSort.Proofs.StableSort
import ClassSort.Vocabulary.VariantTable

/-!
# Moving the bits of variants

The bits of variants are places in a table, so they are only good for comparing: what
counts is which of two bits is higher. A map of bits that keeps this, on the bits in use,
changes no comparison of the sets. It goes through the sort that brings the bits down from
the highest, through the removal of repetitions, and through the lexicographic comparison
of what is left.

A table that more names are added to behind is such a map. The names that were there keep
their bits. The bit of the variants in brackets moves up, but it was above all others
before and is so again.
-/

namespace ClassSort

/-! ## Sets of bits -/

namespace VariantOrder

/-- `f` keeps the order of the bits up to `top`. -/
def Rises (top : Nat) (f : Nat → Nat) : Prop := ∀ a b, a < b → b ≤ top → f a < f b

variable {top : Nat} {f : Nat → Nat}

theorem Rises.lt_iff (h : Rises top f) {a b : Nat} (ha : a ≤ top) (hb : b ≤ top) :
    f a < f b ↔ a < b := by
  constructor
  · intro hlt
    by_cases hab : a < b
    · exact hab
    · rcases Nat.lt_or_eq_of_le (Nat.le_of_not_lt hab) with hba | rfl
      · have := h b a hba ha
        omega
      · omega
  · exact fun hab => h a b hab hb

theorem Rises.le_iff (h : Rises top f) {a b : Nat} (ha : a ≤ top) (hb : b ≤ top) :
    f a ≤ f b ↔ a ≤ b := by
  rw [← Nat.not_lt, ← Nat.not_lt, h.lt_iff hb ha]

theorem Rises.eq_iff (h : Rises top f) {a b : Nat} (ha : a ≤ top) (hb : b ≤ top) :
    f a = f b ↔ a = b := by
  rw [Nat.le_antisymm_iff, Nat.le_antisymm_iff, h.le_iff ha hb, h.le_iff hb ha]

theorem Rises.compare_eq (h : Rises top f) {a b : Nat} (ha : a ≤ top) (hb : b ≤ top) :
    compare (f a) (f b) = compare a b := by
  rw [Nat.compare_eq_ite_lt, Nat.compare_eq_ite_lt]
  simp only [h.lt_iff ha hb, h.lt_iff hb ha]

theorem mem_of_mem_dropRepeats {a : Nat} {l : List Nat} (h : a ∈ dropRepeats l) : a ∈ l := by
  induction l with
  | nil => exact h
  | cons b l ih =>
      cases l with
      | nil => exact h
      | cons c l =>
          rw [dropRepeats] at h
          split at h
          · exact List.mem_cons_of_mem b (ih h)
          · rcases List.mem_cons.mp h with rfl | h
            · exact List.mem_cons_self
            · exact List.mem_cons_of_mem b (ih h)

theorem mem_of_mem_ofBits {a : Nat} {bits : List Nat} (h : a ∈ (ofBits bits).bits) : a ∈ bits :=
  List.mem_mergeSort.mp (mem_of_mem_dropRepeats h)

theorem dropRepeats_map (h : Rises top f) {l : List Nat} (hl : ∀ a ∈ l, a ≤ top) :
    dropRepeats (l.map f) = (dropRepeats l).map f := by
  induction l with
  | nil => rfl
  | cons a l ih =>
      cases l with
      | nil => rfl
      | cons b l =>
          have hrest := ih (fun c hc => hl c (List.mem_cons_of_mem a hc))
          have hsame := h.eq_iff (hl a (by simp)) (hl b (by simp))
          rw [List.map_cons] at hrest
          rw [List.map_cons, List.map_cons, dropRepeats, dropRepeats, hrest]
          by_cases hab : a = b
          · rw [if_pos hab, if_pos (hsame.mpr hab)]
          · rw [if_neg hab, if_neg (fun heq => hab (hsame.mp heq)), List.map_cons]

/-- **The set of the moved bits is the moved set.** -/
theorem ofBits_map (h : Rises top f) {bits : List Nat} (hbits : ∀ a ∈ bits, a ≤ top) :
    ofBits (bits.map f) = ⟨(ofBits bits).bits.map f⟩ := by
  have hsort : (bits.map f).mergeSort (fun a b => decide (b ≤ a)) =
      (bits.mergeSort fun a b => decide (b ≤ a)).map f := by
    refine (List.map_mergeSort ?_).symm
    intro a ha b hb
    rw [decide_eq_decide]
    exact (h.le_iff (hbits b hb) (hbits a ha)).symm
  unfold ofBits
  rw [hsort, dropRepeats_map h]
  intro a ha
  exact hbits a (List.mem_mergeSort.mp ha)

theorem compare_map (h : Rises top f) {l m : List Nat} (hl : ∀ a ∈ l, a ≤ top)
    (hm : ∀ a ∈ m, a ≤ top) : compare (l.map f) (m.map f) = compare l m := by
  rw [List.compare_eq_compareLex]
  induction l generalizing m with
  | nil =>
      cases m with
      | nil => rfl
      | cons b m => rfl
  | cons a l ih =>
      cases m with
      | nil => rfl
      | cons b m =>
          rw [List.map_cons, List.map_cons, List.compareLex_cons_cons, List.compareLex_cons_cons,
            h.compare_eq (hl a (by simp)) (hm b (by simp)),
            ih (fun c hc => hl c (List.mem_cons_of_mem a hc))
              (fun c hc => hm c (List.mem_cons_of_mem b hc))]

/-- **Moving bits changes no comparison of two sets.** -/
theorem compare_ofBits_map (h : Rises top f) {bits bits' : List Nat}
    (hbits : ∀ a ∈ bits, a ≤ top) (hbits' : ∀ a ∈ bits', a ≤ top) :
    compare (ofBits (bits.map f)) (ofBits (bits'.map f)) =
      compare (ofBits bits) (ofBits bits') := by
  rw [ofBits_map h hbits, ofBits_map h hbits']
  exact compare_map h (fun a ha => hbits a (mem_of_mem_ofBits ha))
    (fun a ha => hbits' a (mem_of_mem_ofBits ha))

end VariantOrder

/-! ## Tables -/

namespace VariantTable

theorem mem_of_mem_firsts {seen : Std.TreeSet String} {names : List String} {name : String}
    (h : name ∈ firsts seen names) : name ∈ names := by
  induction names generalizing seen with
  | nil => exact h
  | cons n names ih =>
      rw [firsts] at h
      split at h
      · exact List.mem_cons_of_mem n (ih h)
      · rcases List.mem_cons.mp h with rfl | h
        · exact List.mem_cons_self
        · exact List.mem_cons_of_mem n (ih h)

/-- Names that come later change nothing about the earlier ones. -/
theorem firsts_append (seen : Std.TreeSet String) (names more : List String) :
    ∃ rest, firsts seen (names ++ more) = firsts seen names ++ rest ∧ ∀ name ∈ rest, name ∈ more := by
  induction names generalizing seen with
  | nil => exact ⟨firsts seen more, rfl, fun _ => mem_of_mem_firsts⟩
  | cons n names ih =>
      rw [List.cons_append, firsts, firsts]
      split
      · exact ih seen
      · obtain ⟨rest, heq, hrest⟩ := ih (seen.insert n)
        exact ⟨rest, by rw [heq, List.cons_append], hrest⟩

/-- **More plugin variants make a longer table.** If the table is full, nothing is added. -/
theorem ofNames_append (screens plugins more : List String) :
    ∃ rest, (ofNames screens (plugins ++ more)).names = (ofNames screens plugins).names ++ rest ∧
      ∀ name ∈ rest, name ∈ more := by
  obtain ⟨rest, heq, hrest⟩ :=
    firsts_append ∅ (beforeScreens ++ screens ++ afterScreens ++ plugins) more
  unfold ofNames
  rw [← List.append_assoc, heq]
  dsimp only
  rw [List.take_append]
  refine ⟨_, rfl, ?_⟩
  intro name hname
  exact hrest name (List.mem_of_mem_take hname)

/-- What becomes of a bit when a table grows: only the bit above all names moves. -/
def moved (t t' : VariantTable) (bit : Nat) : Nat :=
  if bit < t.arbitraryBit then bit else t'.arbitraryBit

variable {t t' : VariantTable} {rest : List String}

theorem rises_moved (h : t'.names = t.names ++ rest) :
    VariantOrder.Rises t.arbitraryBit (moved t t') := by
  intro a b hab hb
  have hlen : t.arbitraryBit ≤ t'.arbitraryBit := by
    unfold arbitraryBit
    rw [h, List.length_append]
    omega
  unfold moved
  rw [if_pos (Nat.lt_of_lt_of_le hab hb)]
  split <;> omega

theorem bit?_le {variant : Text} {bit : Nat} (h : t.bit? variant = some bit) :
    bit ≤ t.arbitraryBit := by
  unfold bit? at h
  split at h
  · rename_i i hi
    obtain ⟨hlt, -⟩ := List.idxOf?_eq_some_iff.mp hi
    obtain rfl := Option.some.inj h
    exact Nat.le_of_lt hlt
  · split at h
    · exact Nat.le_of_eq (Option.some.inj h).symm
    · exact absurd h (by simp)

/-- **A name keeps its bit, and a variant in brackets the bit above all names**, unless it
is one of the names that were added. -/
theorem bit?_of_longer (h : t'.names = t.names ++ rest)
    (hrest : ∀ name ∈ rest, isArbitrary name.toList = false) {variant : Text} {bit : Nat}
    (hbit : t.bit? variant = some bit) : t'.bit? variant = some (moved t t' bit) := by
  have hidx : t'.names.idxOf? (String.ofList variant) =
      (t.names.idxOf? (String.ofList variant)).or
        ((rest.idxOf? (String.ofList variant)).map fun i => i + t.names.length) := by
    rw [h]
    exact List.findIdx?_append
  unfold bit? at hbit ⊢
  rw [hidx]
  split at hbit
  · rename_i i hi
    obtain ⟨hlt, -⟩ := List.idxOf?_eq_some_iff.mp hi
    obtain rfl := Option.some.inj hbit
    rw [hi]
    exact congrArg some (if_pos hlt).symm
  · rename_i hnone
    split at hbit
    · rename_i harb
      obtain rfl := Option.some.inj hbit
      -- the variant is in brackets, and none of the new names is
      have hnew : rest.idxOf? (String.ofList variant) = none := by
        refine List.idxOf?_eq_none_iff.mpr ?_
        intro hmem
        have hplain := hrest _ hmem
        rw [String.toList_ofList, harb] at hplain
        exact absurd hplain (by simp)
      rw [hnone, hnew]
      simp only [Option.map_none, Option.or_none, harb, if_true]
      exact congrArg some (if_neg (Nat.lt_irrefl _)).symm
    · exact absurd hbit (by simp)

end VariantTable

end ClassSort
