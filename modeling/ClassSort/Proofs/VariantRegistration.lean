import Mathlib.Data.Finset.Card
import Std.Data.TreeSet.Lemmas
import ClassSort.Proofs.VariantBits

/-!
# Registering variants

The bits of a table are places in the sequence in which names are registered: built-in
variants, screens, more built-in variants, and the variants of plugins. A name counts where it
stands first, so **the bit of a name is the number of different names in front of its first
occurrence**, for as long as there are bits. Everything else about the bits follows from that:
they are distinct, none is left out, and they stand in the order of the first occurrences.

The table is written down as a list cut off at the capacity. Giving out the bits is a loop with a
16-bit counter, which wraps around if it is increased once too often. It is not: the counter stops
at the last bit, which belongs to the variants in brackets, and the loop ends with the same table.

A name that is new to the sequence comes between two others. The names in front of it keep their
bits and all other variants move up by one, so no two of them change places.
-/

namespace ClassSort.VariantTable

/-- The names in the order in which they are registered. -/
def registration (screens plugins : List String) : List String :=
  beforeScreens ++ screens ++ afterScreens ++ plugins

/-- How many different names stand in front of the first occurrence of a name. -/
def namesBefore (names : List String) (name : String) : Nat :=
  (names.take (names.idxOf name)).toFinset.card

/-- `name` is in the table, and this is its bit. -/
def Registered (t : VariantTable) (name : String) (bit : Nat) : Prop :=
  name ∈ t.names ∧ t.bit? name.toList = some bit

/-- The table gives the names of a sequence their bits by first occurrence. -/
structure Numbers (t : VariantTable) (names : List String) : Prop where
  /-- There are as many bits as different names, up to the capacity. -/
  top : t.arbitraryBit = min capacity names.toFinset.card
  /-- The bit of a name is its number among the first occurrences. Names whose number is not
  below the top are not registered. -/
  registered_iff : ∀ name bit, t.Registered name bit ↔
    name ∈ names ∧ bit = namesBefore names name ∧ bit < t.arbitraryBit
  /-- No bit is left out. -/
  exists_name : ∀ bit < t.arbitraryBit, ∃ name, t.Registered name bit
  /-- No bit is given twice. -/
  distinct : ∀ a b bit, t.Registered a bit → t.Registered b bit → a = b
  /-- Bits stand in the order of the first occurrences. -/
  order : ∀ a b i j, t.Registered a i → t.Registered b j →
    (i < j ↔ names.idxOf a < names.idxOf b)
  /-- The variants in brackets share the bit above all names. -/
  brackets : ∀ variant, isArbitrary variant = true → String.ofList variant ∉ t.names →
    t.bit? variant = some t.arbitraryBit

/-! ## First occurrences -/

theorem contains_insert (seen : Std.TreeSet String) (a b : String) :
    (seen.insert a).contains b = (a == b || seen.contains b) := by
  rw [Std.TreeSet.contains_insert]
  congr 1
  exact Bool.eq_iff_iff.mpr (by simp)

/-- What is kept of some names is what a list without repetitions would keep. -/
theorem firsts_eq (seen : Std.TreeSet String) (names : List String) :
    firsts seen names = (names.filter fun name => !seen.contains name).eraseDups := by
  induction names generalizing seen with
  | nil => rfl
  | cons n names ih =>
      rw [firsts]
      split
      · rename_i hseen
        rw [List.filter_cons_of_neg (by simp [hseen])]
        exact ih seen
      · rename_i hnew
        rw [List.filter_cons_of_pos (by simp [hnew]), List.eraseDups_cons, ih, List.filter_filter]
        simp only [contains_insert, Bool.not_or, Bool.beq_comm]

theorem firsts_empty (names : List String) : firsts ∅ names = names.eraseDups := by
  rw [firsts_eq, List.filter_eq_self.mpr fun name _ => by simp]

/-- The table holds the first occurrences, as far as there is room. -/
theorem names_ofNames (screens plugins : List String) :
    (ofNames screens plugins).names = (registration screens plugins).eraseDups.take capacity := by
  rw [← firsts_empty]
  rfl

theorem nodup_eraseDups : (names : List String) → names.eraseDups.Nodup
  | [] => List.nodup_nil
  | n :: names => by
      rw [List.eraseDups_cons]
      refine List.nodup_cons.mpr ⟨?_, nodup_eraseDups _⟩
      intro hmem
      have hne := (List.mem_filter.mp (List.mem_eraseDups.mp hmem)).2
      simp at hne
termination_by names => names.length
decreasing_by exact Nat.lt_succ_of_le (List.length_filter_le _ _)

theorem length_eraseDups (names : List String) :
    names.eraseDups.length = names.toFinset.card := by
  rw [← List.toFinset_card_of_nodup (nodup_eraseDups names)]
  congr 1
  ext name
  rw [List.mem_toFinset, List.mem_toFinset, List.mem_eraseDups]

/-- A list at the first occurrence of one of its names. -/
theorem split_at_idxOf {names : List String} {name : String} (h : name ∈ names) :
    names = names.take (names.idxOf name) ++ name :: names.drop (names.idxOf name + 1) ∧
      name ∉ names.take (names.idxOf name) := by
  constructor
  · have hlt := List.idxOf_lt_length_of_mem h
    have hdrop := List.drop_eq_getElem_cons hlt
    rw [List.getElem_idxOf hlt] at hdrop
    rw [← hdrop, List.take_append_drop]
  · rw [List.mem_take_iff_idxOf_lt h]
    exact Nat.lt_irrefl _

/-- The first occurrences of a sequence around a name that occurs there for the first time. -/
theorem eraseDups_at {front : List String} {name : String} (h : name ∉ front)
    (back : List String) :
    (front ++ name :: back).eraseDups = front.eraseDups ++
      name :: ((back.removeAll front).filter fun other => !other == name).eraseDups := by
  rw [List.eraseDups_append, List.cons_removeAll, if_pos (by simpa using h), List.eraseDups_cons]

/-- **The number of a name among the first occurrences.** -/
theorem getElem?_eraseDups {names : List String} {name : String} {i : Nat} :
    names.eraseDups[i]? = some name ↔ name ∈ names ∧ i = namesBefore names name := by
  have hplace : name ∈ names → names.eraseDups[namesBefore names name]? = some name := by
    intro hmem
    obtain ⟨hsplit, hfront⟩ := split_at_idxOf hmem
    have hends := (congrArg List.eraseDups hsplit).trans (eraseDups_at hfront _)
    rw [hends, namesBefore, ← length_eraseDups, List.getElem?_append_right (Nat.le_refl _),
      Nat.sub_self]
    rfl
  constructor
  · intro hi
    have hmem := List.mem_eraseDups.mp (List.mem_of_getElem? hi)
    obtain ⟨hlt, hget⟩ := List.getElem?_eq_some_iff.mp hi
    obtain ⟨hlt', hget'⟩ := List.getElem?_eq_some_iff.mp (hplace hmem)
    -- a name stands in one place only
    exact ⟨hmem, (nodup_eraseDups names).getElem_inj_iff.mp (hget.trans hget'.symm)⟩
  · rintro ⟨hmem, rfl⟩
    exact hplace hmem

/-- A name that occurs earlier has fewer names in front of it. -/
theorem namesBefore_lt {names : List String} {a b : String} (ha : a ∈ names)
    (h : names.idxOf a < names.idxOf b) : namesBefore names a < namesBefore names b := by
  -- what stands in front of `a` stands in front of `b`, and so does `a` itself
  refine Finset.card_lt_card (Finset.ssubset_iff_of_subset ?_ |>.mpr ⟨a, ?_, ?_⟩)
  · intro name hname
    rw [List.mem_toFinset] at hname ⊢
    exact (List.take_subset_take_left names (Nat.le_of_lt h)) hname
  · rw [List.mem_toFinset, List.mem_take_iff_idxOf_lt ha]
    exact h
  · rw [List.mem_toFinset]
    exact (split_at_idxOf ha).2

theorem namesBefore_lt_iff {names : List String} {a b : String} (ha : a ∈ names)
    (hb : b ∈ names) :
    namesBefore names a < namesBefore names b ↔ names.idxOf a < names.idxOf b := by
  refine ⟨fun hlt => ?_, namesBefore_lt ha⟩
  rcases Nat.lt_trichotomy (names.idxOf a) (names.idxOf b) with h | h | h
  · exact h
  · rw [(List.idxOf_inj ha).mp h] at hlt
    exact absurd hlt (Nat.lt_irrefl _)
  · exact absurd hlt (Nat.lt_asymm (namesBefore_lt hb h))

/-! ## The table -/

variable {t : VariantTable}

theorem bit?_of_mem {name : String} (h : name ∈ t.names) :
    t.bit? name.toList = some (t.names.idxOf name) := by
  unfold bit?
  rw [String.ofList_toList]
  cases hidx : t.names.idxOf? name with
  | none => exact absurd h (List.idxOf?_eq_none_iff.mp hidx)
  | some i => rw [List.idxOf_eq_getD_idxOf?, hidx, Option.getD_some]

/-- In a table without repetitions, the bit of a name is its place. -/
theorem registered_iff_getElem? (h : t.names.Nodup) {name : String} {bit : Nat} :
    t.Registered name bit ↔ t.names[bit]? = some name := by
  constructor
  · rintro ⟨hmem, heq⟩
    rw [bit?_of_mem hmem] at heq
    obtain rfl := Option.some.inj heq
    exact List.getElem?_idxOf hmem
  · intro hget
    have hmem := List.mem_of_getElem? hget
    refine ⟨hmem, ?_⟩
    obtain ⟨hlt, rfl⟩ := List.getElem?_eq_some_iff.mp hget
    rw [bit?_of_mem hmem, h.idxOf_getElem]

/-- **A table of first occurrences gives them their numbers.** -/
theorem numbers_of_names {names : List String} (h : t.names = names.eraseDups.take capacity) :
    t.Numbers names := by
  have hnodup : t.names.Nodup := h ▸ (nodup_eraseDups names).sublist (List.take_sublist _ _)
  have htop : t.arbitraryBit = min capacity names.toFinset.card := by
    rw [arbitraryBit, h, List.length_take, length_eraseDups]
  have hiff : ∀ name bit, t.Registered name bit ↔
      name ∈ names ∧ bit = namesBefore names name ∧ bit < t.arbitraryBit := by
    intro name bit
    rw [registered_iff_getElem? hnodup, ← and_assoc, ← getElem?_eraseDups]
    -- below the top, the table and the first occurrences have the same names in the same places
    constructor
    · intro hget
      have hlt : bit < t.arbitraryBit := (List.getElem?_eq_some_iff.mp hget).1
      rw [h, List.getElem?_take_of_lt (by omega)] at hget
      exact ⟨hget, hlt⟩
    · rintro ⟨hget, hlt⟩
      rw [h, List.getElem?_take_of_lt (by omega)]
      exact hget
  refine ⟨htop, hiff, ?_, ?_, ?_, ?_⟩
  · intro bit hlt
    exact ⟨_, (registered_iff_getElem? hnodup).mpr (List.getElem?_eq_getElem hlt)⟩
  · intro a b bit ha hb
    rw [registered_iff_getElem? hnodup] at ha hb
    exact Option.some.inj (ha.symm.trans hb)
  · intro a b i j ha hb
    obtain ⟨hmem, rfl, -⟩ := (hiff a i).mp ha
    obtain ⟨hmem', rfl, -⟩ := (hiff b j).mp hb
    exact namesBefore_lt_iff hmem hmem'
  · intro variant harb hnew
    unfold bit?
    rw [List.idxOf?_eq_none_iff.mpr hnew]
    exact if_pos harb

/-! ## Giving out the bits -/

/-- The bits given out so far, and a counter of 16 bits that holds the next one. -/
structure Registry where
  bits : List (String × UInt16)
  next : UInt16

namespace Registry

def empty : Registry := ⟨[], 0⟩

/-- Gives a name the next bit. -/
def give (r : Registry) (name : String) : Registry := ⟨r.bits ++ [(name, r.next)], r.next + 1⟩

/-- Registers names one after another. A name that has a bit keeps it. The last bit is not given
out: a counter that has come to it ends the registration. -/
def register (r : Registry) : List String → Registry
  | [] => r
  | name :: rest =>
    if name ∈ r.bits.map Prod.fst then register r rest
    else if r.next = 65535 then r
    else register (r.give name) rest

/-- The names have their places as bits, and the counter is their number. A counter that had
wrapped around would be smaller. -/
structure Holds (r : Registry) (names : List String) : Prop where
  bits : r.bits.map (Prod.map id UInt16.toNat) = names.zipIdx
  next : r.next.toNat = names.length

variable {r : Registry} {names : List String}

theorem Holds.map_fst (h : r.Holds names) : r.bits.map Prod.fst = names := by
  have hfst := congrArg (List.map Prod.fst) h.bits
  rw [List.map_map, List.zipIdx_map_fst] at hfst
  exact hfst

theorem Holds.length_le (h : r.Holds names) : names.length ≤ capacity := by
  have hlt := r.next.toNat_lt
  rw [h.next] at hlt
  exact Nat.le_of_lt_succ hlt

/-- **One step.** Below the last bit, the counter can be increased. -/
theorem Holds.give (h : r.Holds names) (hroom : r.next ≠ 65535) (name : String) :
    (r.give name).Holds (names ++ [name]) := by
  constructor
  · show List.map _ (r.bits ++ [(name, r.next)]) = _
    rw [List.map_append, h.bits, List.zipIdx_append, ← h.next, Nat.zero_add]
    rfl
  · -- the sum stays below the modulus
    have hne : r.next.toNat ≠ 65535 := fun heq => hroom (UInt16.toNat_inj.mp heq)
    have hlt := r.next.toNat_lt
    show (r.next + 1).toNat = _
    rw [UInt16.toNat_add, List.length_append, ← h.next]
    exact Nat.mod_eq_of_lt (by show r.next.toNat + 1 < _; omega)

/-- **The whole run.** What was held is kept, and behind it come the names that are new, as far
as there is room. -/
theorem Holds.register (h : r.Holds names) {seen : Std.TreeSet String}
    (hseen : ∀ name, seen.contains name = true ↔ name ∈ names) (more : List String) :
    (r.register more).Holds ((names ++ firsts seen more).take capacity) := by
  -- `firsts` and the loop go through the names together, one with a set and one with the registry
  induction more generalizing r names seen with
  | nil =>
      rw [firsts, List.append_nil, List.take_of_length_le h.length_le]
      exact h
  | cons name more ih =>
      rw [Registry.register, firsts, h.map_fst]
      by_cases hmem : name ∈ names
      · rw [if_pos hmem, if_pos ((hseen name).mpr hmem)]
        exact ih h hseen
      · rw [if_neg hmem, if_neg (fun hin => hmem ((hseen name).mp hin))]
        by_cases hfull : r.next = 65535
        · -- no bit is left, and the names held fill the table
          have hlen : names.length = capacity := by
            rw [← h.next, hfull]
            rfl
          rw [if_pos hfull, List.take_left' hlen]
          exact h
        · have hseen' : ∀ other, (seen.insert name).contains other = true ↔
              other ∈ names ++ [name] := by
            intro other
            rw [contains_insert, Bool.or_eq_true, beq_iff_eq, hseen, List.mem_append,
              List.mem_singleton, or_comm, eq_comm]
          rw [if_neg hfull, ← List.singleton_append, ← List.append_assoc]
          exact ih (h.give hfull name) hseen'

/-- **The loop makes the table of first occurrences.** -/
theorem holds_register (names : List String) :
    (empty.register names).Holds (names.eraseDups.take capacity) := by
  have hstart : empty.Holds [] := ⟨rfl, rfl⟩
  have hunseen : ∀ name, (∅ : Std.TreeSet String).contains name = true ↔ name ∈ ([] : List String) :=
    by simp
  have hrun := hstart.register hunseen names
  rw [firsts_empty] at hrun
  exact hrun

theorem next_register (names : List String) :
    (empty.register names).next.toNat = min capacity names.toFinset.card := by
  rw [(holds_register names).next, List.length_take, length_eraseDups]

end Registry

/-! ## A name more -/

/-- All variants but one keep their order when a table is changed: their bits are moved, and
moving them keeps the order of any two. -/
def KeepsOrder (t t' : VariantTable) (name : String) : Prop :=
  ∃ f : Nat → Nat, StrictMono f ∧
    ∀ variant, String.ofList variant ≠ name → t'.bit? variant = (t.bit? variant).map f

/-- Makes room for a bit at `place`. -/
def makeRoom (place bit : Nat) : Nat := if bit < place then bit else bit + 1

theorem strictMono_makeRoom (place : Nat) : StrictMono (makeRoom place) := by
  intro a b hab
  unfold makeRoom
  split <;> split <;> omega

theorem idxOf?_insert {front back : List String} {name other : String} (h : other ≠ name) :
    (front ++ name :: back).idxOf? other =
      ((front ++ back).idxOf? other).map (makeRoom front.length) := by
  have happend : ∀ rest : List String, (front ++ rest).idxOf? other =
      (front.idxOf? other).or ((rest.idxOf? other).map (· + front.length)) :=
    fun rest => List.findIdx?_append
  have hne : (name == other) = false := beq_eq_false_iff_ne.mpr h.symm
  rw [happend, happend, List.idxOf?_cons, hne, if_neg Bool.false_ne_true]
  cases hfront : front.idxOf? other with
  | some i =>
      obtain ⟨hlt, -⟩ := List.idxOf?_eq_some_iff.mp hfront
      exact congrArg some (if_pos hlt).symm
  | none =>
      cases back.idxOf? other with
      | none => rfl
      | some i =>
          show some (i + 1 + front.length) = some (makeRoom front.length (i + front.length))
          rw [makeRoom, if_neg (by omega), Nat.add_right_comm]

theorem keepsOrder_of_insert {t' : VariantTable} {front back : List String} {name : String}
    (h : t.names = front ++ back) (h' : t'.names = front ++ name :: back) :
    t.KeepsOrder t' name := by
  refine ⟨makeRoom front.length, strictMono_makeRoom _, ?_⟩
  intro variant hne
  have htop : t'.arbitraryBit = makeRoom front.length t.arbitraryBit := by
    unfold arbitraryBit makeRoom
    rw [h, h', List.length_append, List.length_append, List.length_cons, if_neg (by omega)]
    rfl
  unfold bit?
  rw [h', idxOf?_insert hne, ← h, htop]
  cases t.names.idxOf? (String.ofList variant) with
  | some bit => rfl
  | none => cases isArbitrary variant <;> rfl

/-- A new name comes between the first occurrences of the others. -/
theorem eraseDups_insert {front back : List String} {name : String} (h : name ∉ front ++ back) :
    ∃ front' back', (front ++ back).eraseDups = front' ++ back' ∧
      (front ++ name :: back).eraseDups = front' ++ name :: back' := by
  rw [List.mem_append, not_or] at h
  refine ⟨front.eraseDups, (back.removeAll front).eraseDups, List.eraseDups_append, ?_⟩
  rw [eraseDups_at h.1]
  -- the name does not come again, so nothing is taken out because of it
  rw [List.filter_eq_self.mpr]
  intro other hother
  have hmem : other ∈ back := List.mem_of_mem_filter hother
  simp only [Bool.not_eq_true', beq_eq_false_iff_ne]
  rintro rfl
  exact h.2 hmem

/-- **A new name in the sequence changes no order**, if there is a bit for it. -/
theorem keepsOrder_of_new {screens plugins screens' plugins' front back : List String}
    {name : String} (h : registration screens plugins = front ++ back)
    (h' : registration screens' plugins' = front ++ name :: back)
    (hnew : name ∉ registration screens plugins)
    (hroom : (registration screens plugins).toFinset.card < capacity) :
    (ofNames screens plugins).KeepsOrder (ofNames screens' plugins') name := by
  rw [h] at hnew
  obtain ⟨front', back', heq, heq'⟩ := eraseDups_insert hnew
  rw [← length_eraseDups, h, heq, List.length_append] at hroom
  have hnames : (ofNames screens plugins).names = front' ++ back' := by
    rw [names_ofNames, h, heq, List.take_of_length_le]
    rw [List.length_append]
    exact Nat.le_of_lt hroom
  have hnames' : (ofNames screens' plugins').names = front' ++ name :: back' := by
    rw [names_ofNames, h', heq', List.take_of_length_le]
    rw [List.length_append, List.length_cons]
    exact hroom
  exact keepsOrder_of_insert hnames hnames'

/--
**Variants are numbered in the order in which they are registered.**

The bits of a table are the numbers of the first occurrences, without gaps and up to the capacity,
and the variants in brackets have the bit above them. The counter of 16 bits that gives them out is
at every moment the number of different names so far, up to the capacity, so that it never wraps
around, and in the end the table has been made. A new name anywhere among the screens or the plugin
variants leaves the order of all other variants as it is, if there is a bit for it.
-/
theorem variants_numbered_by_registration (screens plugins : List String) :
    (ofNames screens plugins).Numbers (registration screens plugins) ∧
    (∀ k, (Registry.empty.register ((registration screens plugins).take k)).next.toNat =
      min capacity ((registration screens plugins).take k).toFinset.card) ∧
    (Registry.empty.register (registration screens plugins)).Holds
      (ofNames screens plugins).names ∧
    ∀ (name : String) (front back : List String), name ∉ registration screens plugins →
      (registration screens plugins).toFinset.card < capacity →
      (screens = front ++ back →
        (ofNames screens plugins).KeepsOrder (ofNames (front ++ name :: back) plugins) name) ∧
      (plugins = front ++ back →
        (ofNames screens plugins).KeepsOrder (ofNames screens (front ++ name :: back)) name) := by
  refine ⟨numbers_of_names (names_ofNames screens plugins), fun k => Registry.next_register _, ?_, ?_⟩
  · rw [names_ofNames]
    exact Registry.holds_register _
  · intro name front back hnew hroom
    constructor
    · rintro rfl
      have hold : registration (front ++ back) plugins =
          (beforeScreens ++ front) ++ (back ++ afterScreens ++ plugins) := by
        simp only [registration, List.append_assoc]
      exact keepsOrder_of_new hold (by simp [registration]) hnew hroom
    · rintro rfl
      have hold : registration screens (front ++ back) =
          (beforeScreens ++ screens ++ afterScreens ++ front) ++ back := by
        simp only [registration, List.append_assoc]
      exact keepsOrder_of_new hold (by simp [registration]) hnew hroom

/-- A name between two screens, and behind a plugin variant that repeats a screen. -/
theorem variants_numbered_by_registration_between :
    "peek" ∉ registration ["sm", "md"] ["hocus", "sm"] ∧
    (registration ["sm", "md"] ["hocus", "sm"]).toFinset.card < capacity ∧
    (ofNames ["sm", "md"] ["hocus", "sm"]).KeepsOrder
      (ofNames ["sm", "peek", "md"] ["hocus", "sm"]) "peek" ∧
    (ofNames ["sm", "md"] ["hocus", "sm"]).KeepsOrder
      (ofNames ["sm", "md"] ["hocus", "sm", "peek"]) "peek" := by
  have hnew : "peek" ∉ registration ["sm", "md"] ["hocus", "sm"] := by decide +kernel
  have hroom : (registration ["sm", "md"] ["hocus", "sm"]).toFinset.card < capacity :=
    Nat.lt_of_le_of_lt (List.toFinset_card_le _) (by decide)
  obtain ⟨-, -, -, hinsert⟩ := variants_numbered_by_registration ["sm", "md"] ["hocus", "sm"]
  exact ⟨hnew, hroom, (hinsert "peek" ["sm"] ["md"] hnew hroom).1 rfl,
    (hinsert "peek" ["hocus", "sm"] [] hnew hroom).2 rfl⟩

end ClassSort.VariantTable
