import ClassSort.Text.Basic

/-!
# Cuts of a text

Everything that is said about byte ranges comes down to one fact: a cut at byte `n`
succeeds exactly when the text is a part of `n` bytes followed by the rest, and there is
at most one such way to take it apart. A valid range is then a *decomposition* of the
text, and ranges that touch are put together by putting their texts together.

Later files never unfold `splitAt?`, `slice?` or `drop?`. They use the three
characterizations below, and `append_inj_size` where two decompositions have to agree.
-/

namespace ClassSort.Text

@[simp] theorem size_nil : size [] = 0 := rfl

@[simp] theorem size_cons (c : Char) (cs : Text) : size (c :: cs) = c.utf8Size + size cs := rfl

@[simp] theorem size_append (a b : Text) : size (a ++ b) = size a + size b := by
  induction a with
  | nil => simp
  | cons c a ih => simp [ih, Nat.add_assoc]

theorem length_le_size (cs : Text) : cs.length ≤ size cs := by
  induction cs with
  | nil => simp
  | cons c cs ih =>
      have hc := Char.utf8Size_pos c
      simp only [List.length_cons, size_cons]
      omega

theorem eq_nil_of_size_eq_zero {cs : Text} (h : size cs = 0) : cs = [] := by
  have hlen := length_le_size cs
  exact List.length_eq_zero_iff.mp (by omega)

theorem size_pos {cs : Text} (h : cs ≠ []) : 0 < size cs := by
  have hlen := length_le_size cs
  have hpos := List.length_pos_iff.mpr h
  omega

/-- The size does not depend on the order of the characters. -/
theorem size_perm {a b : Text} (h : a.Perm b) : size a = size b := by
  induction h with
  | nil => rfl
  | cons c _ ih => simp [ih]
  | swap c d l => simp only [size_cons]; omega
  | trans _ _ ih₁ ih₂ => exact ih₁.trans ih₂

/-! ## One cut -/

theorem splitAt?_append (a b : Text) : splitAt? (a ++ b) (size a) = some (a, b) := by
  induction a with
  | nil => cases b <;> rfl
  | cons c a ih =>
      have hc := Char.utf8Size_pos c
      obtain ⟨n, hn⟩ : ∃ n, size (c :: a) = n + 1 := ⟨c.utf8Size + size a - 1, by simp; omega⟩
      have hle : c.utf8Size ≤ n + 1 := by rw [← hn, size_cons]; omega
      have hrest : n + 1 - c.utf8Size = size a := by rw [← hn, size_cons]; omega
      rw [hn, List.cons_append, splitAt?, if_pos hle, hrest, ih]
      rfl

theorem append_of_splitAt? {cs : Text} : ∀ {n : Nat} {a b : Text},
    splitAt? cs n = some (a, b) → cs = a ++ b ∧ size a = n := by
  induction cs with
  | nil =>
      intro n a b h
      cases n with
      | zero =>
          injection h with h
          injection h with ha hb
          exact ⟨by rw [← ha, ← hb]; rfl, by rw [← ha]; rfl⟩
      | succ n => exact absurd h (by simp [splitAt?])
  | cons c cs ih =>
      intro n a b h
      cases n with
      | zero =>
          injection h with h
          injection h with ha hb
          exact ⟨by rw [← ha, ← hb]; rfl, by rw [← ha]; rfl⟩
      | succ n =>
          rw [splitAt?] at h
          split at h
          · obtain ⟨⟨a', b'⟩, hcut, heq⟩ := Option.map_eq_some_iff.mp h
            injection heq with ha hb
            obtain ⟨hcs, hsize⟩ := ih hcut
            subst ha hb
            refine ⟨by rw [hcs]; rfl, ?_⟩
            rw [size_cons, hsize]
            omega
          · exact absurd h (by simp)

/-- **A cut succeeds exactly at the end of a part of that size.** -/
theorem splitAt?_eq_some {cs a b : Text} {n : Nat} :
    splitAt? cs n = some (a, b) ↔ cs = a ++ b ∧ size a = n := by
  constructor
  · exact append_of_splitAt?
  · rintro ⟨rfl, rfl⟩
    exact splitAt?_append a b

/-- There is one way to cut a text at a given byte. -/
theorem append_inj_size {a b a' b' : Text} (h : a ++ b = a' ++ b') (hs : size a = size a') :
    a = a' ∧ b = b' := by
  have h₁ : splitAt? (a ++ b) (size a) = some (a, b) := splitAt?_append a b
  rw [h, hs, splitAt?_append] at h₁
  injection h₁ with h₁
  injection h₁ with ha hb
  exact ⟨ha.symm, hb.symm⟩

theorem drop?_eq_some {cs b : Text} {n : Nat} :
    drop? cs n = some b ↔ ∃ a, cs = a ++ b ∧ size a = n := by
  unfold drop?
  constructor
  · intro h
    obtain ⟨⟨a, b'⟩, hcut, rfl⟩ := Option.map_eq_some_iff.mp h
    exact ⟨a, splitAt?_eq_some.mp hcut⟩
  · rintro ⟨a, hcs, hn⟩
    rw [splitAt?_eq_some.mpr ⟨hcs, hn⟩]
    rfl

/-! ## Two cuts -/

/-- **A range is valid exactly when it holds a part of the text.** -/
theorem slice?_eq_some {cs x : Text} {i j : Nat} :
    slice? cs ⟨i, j⟩ = some x ↔ ∃ a b, cs = a ++ x ++ b ∧ size a = i ∧ i + size x = j := by
  constructor
  · intro h
    unfold slice? at h
    split at h
    · rename_i hle
      dsimp only at hle h
      cases hcut : splitAt? cs i with
      | none => rw [hcut] at h; exact absurd h (by simp)
      | some p =>
          obtain ⟨a, rest⟩ := p
          rw [hcut] at h
          cases hcut' : splitAt? rest (j - i) with
          | none => simp [hcut'] at h
          | some q =>
              obtain ⟨y, b⟩ := q
              simp only [hcut', Option.bind_eq_bind, Option.bind_some, Option.pure_def,
                Option.some.injEq] at h
              subst h
              obtain ⟨hcs, ha⟩ := splitAt?_eq_some.mp hcut
              obtain ⟨hrest, hy⟩ := splitAt?_eq_some.mp hcut'
              exact ⟨a, b, by rw [hcs, hrest, List.append_assoc], ha, by omega⟩
    · exact absurd h (by simp)
  · rintro ⟨a, b, hcs, rfl, rfl⟩
    have hcut : splitAt? cs (size a) = some (a, x ++ b) :=
      splitAt?_eq_some.mpr ⟨by rw [hcs, List.append_assoc], rfl⟩
    have hcut' : splitAt? (x ++ b) (size x) = some (x, b) := splitAt?_append x b
    unfold slice?
    rw [if_pos (Nat.le_add_right _ _)]
    simp [hcut, hcut']

theorem slice?_append (a x b : Text) :
    slice? (a ++ x ++ b) ⟨size a, size a + size x⟩ = some x :=
  slice?_eq_some.mpr ⟨a, b, rfl, rfl, rfl⟩

/-- A valid range runs forward and ends inside the text. -/
theorem bounds_of_slice? {cs x : Text} {s : Span} (h : slice? cs s = some x) :
    s.start + size x = s.stop ∧ s.stop ≤ size cs := by
  obtain ⟨a, b, hcs, ha, hx⟩ := slice?_eq_some.mp h
  refine ⟨hx, ?_⟩
  rw [hcs, ← hx, ← ha]
  simp

/-- **Ranges that touch hold the text of both, one after the other.** -/
theorem slice?_join {cs x y : Text} {i j k : Nat}
    (hx : slice? cs ⟨i, j⟩ = some x) (hy : slice? cs ⟨j, k⟩ = some y) :
    slice? cs ⟨i, k⟩ = some (x ++ y) := by
  obtain ⟨a, b, hcs, ha, hj⟩ := slice?_eq_some.mp hx
  obtain ⟨a', b', hcs', ha', hk⟩ := slice?_eq_some.mp hy
  have hcut : (a ++ x) ++ b = a' ++ (y ++ b') := by rw [← hcs, hcs', List.append_assoc]
  obtain ⟨rfl, rfl⟩ := append_inj_size hcut (by rw [size_append]; omega)
  refine slice?_eq_some.mpr ⟨a, b', by rw [hcs]; simp, ha, ?_⟩
  rw [size_append]
  omega

end ClassSort.Text
