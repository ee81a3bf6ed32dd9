import Mathlib.Algebra.Order.Floor.Div
import Sequences.Proofs.Delivery
import Sequences.Workspace.Operation

/-! Cutting a list into groups and joining groups undo each other. Groups that
a list can be cut into are regular: all but the last are full, and the last
has at least one element. For each size a list is joined from exactly one
regular list of groups, so its number of groups and the place of every element
follow from being regular, and only the cutting itself has to be looked at. -/
namespace Sequences

variable {α τ : Type}

/-- All groups but the last have this size. The last one is not empty, and not
larger. -/
structure Regular (size : Nat) (groups : List (List α)) : Prop where
  full : ∀ group ∈ groups.dropLast, group.length = size
  last : ∀ group ∈ groups.getLast?, 1 ≤ group.length ∧ group.length ≤ size

section Regular

variable {size : Nat} {group : List α} {rest : List (List α)}

theorem regular_nil (size : Nat) : Regular size ([] : List (List α)) := by
  constructor <;> simp

theorem regular_singleton_iff :
    Regular size [group] ↔ 1 ≤ group.length ∧ group.length ≤ size := by
  constructor
  · intro hGroups
    exact hGroups.last group rfl
  · intro hGroup
    exact ⟨by simp, by simpa using hGroup⟩

theorem regular_cons_iff (hRest : rest ≠ []) :
    Regular size (group :: rest) ↔ group.length = size ∧ Regular size rest := by
  obtain ⟨next, later, rfl⟩ := List.exists_cons_of_ne_nil hRest
  constructor
  · intro hGroups
    refine ⟨hGroups.full group (by simp), fun g hg => ?_, fun g hg => ?_⟩
    · exact hGroups.full g (by rw [List.dropLast_cons_cons]; exact List.mem_cons_of_mem group hg)
    · exact hGroups.last g (by rwa [List.getLast?_cons_cons])
  · rintro ⟨hLength, hGroups⟩
    refine ⟨fun g hg => ?_, fun g hg => ?_⟩
    · rw [List.dropLast_cons_cons] at hg
      rcases List.mem_cons.mp hg with rfl | hg
      · exact hLength
      · exact hGroups.full g hg
    · exact hGroups.last g (by rwa [List.getLast?_cons_cons] at hg)

/-- Joined, a first group and the groups behind it are counted one by one. -/
theorem Regular.length_eq {groups : List (List α)} (hSize : 0 < size)
    (hGroups : Regular size groups) : groups.length = groups.flatten.length ⌈/⌉ size := by
  rw [Nat.ceilDiv_eq_add_pred_div]
  induction groups with
  | nil =>
      simp only [List.flatten_nil, List.length_nil, Nat.zero_add]
      rw [Nat.div_eq_of_lt (by omega)]
  | cons group rest ih =>
      rw [List.flatten_cons, List.length_append, List.length_cons]
      by_cases hRest : rest = []
      · subst hRest
        obtain ⟨hPos, hLe⟩ := regular_singleton_iff.mp hGroups
        simp only [List.flatten_nil, List.length_nil, Nat.add_zero, Nat.zero_add]
        symm
        apply Nat.div_eq_of_lt_le <;> omega
      · obtain ⟨hLength, hLater⟩ := (regular_cons_iff hRest).mp hGroups
        have hShift : group.length + rest.flatten.length + size - 1 =
            rest.flatten.length + size - 1 + size := by omega
        rw [hShift, Nat.add_div_right _ hSize, ih hLater]

/-- The first of regular groups are regular: a group that becomes the last one is full. -/
theorem Regular.take {groups : List (List α)} (hSize : 0 < size) (hGroups : Regular size groups)
    (count : Nat) : Regular size (groups.take count) := by
  induction groups generalizing count with
  | nil => rwa [List.take_nil]
  | cons group rest ih =>
      cases count with
      | zero => exact regular_nil size
      | succ count =>
          rw [List.take_succ_cons]
          by_cases hRest : rest = []
          · rwa [hRest, List.take_nil, ← hRest]
          obtain ⟨hLength, hLater⟩ := (regular_cons_iff hRest).mp hGroups
          by_cases hTake : rest.take count = []
          · rw [hTake, regular_singleton_iff]
            omega
          · exact (regular_cons_iff hTake).mpr ⟨hLength, ih hLater count⟩

end Regular

theorem flatten_groups {size : Nat} (hSize : 0 < size) (xs : List α) :
    (groups size xs).flatten = xs := by
  by_cases hNe : xs = []
  · subst hNe
    rw [groups, List.flatten_nil]
  · rw [Feed.groups_of_ne_nil hSize hNe, List.flatten_cons, flatten_groups hSize (xs.drop size),
      List.take_append_drop]
termination_by xs.length
decreasing_by
  have hPos : 0 < xs.length := List.length_pos_iff.mpr hNe
  rw [List.length_drop]
  omega

/-- The first group is full unless nothing is left behind it. -/
theorem regular_groups {size : Nat} (hSize : 0 < size) (xs : List α) :
    Regular size (groups size xs) := by
  by_cases hNe : xs = []
  · subst hNe
    rw [groups]
    exact regular_nil size
  · have hPos : 0 < xs.length := List.length_pos_iff.mpr hNe
    rw [Feed.groups_of_ne_nil hSize hNe]
    by_cases hRest : xs.drop size = []
    · rw [hRest, groups, regular_singleton_iff, List.length_take]
      omega
    · have hLong : size < xs.length := by
        rwa [List.drop_eq_nil_iff, Nat.not_le] at hRest
      have hLater := regular_groups hSize (xs.drop size)
      rw [regular_cons_iff]
      · exact ⟨by rw [List.length_take]; omega, hLater⟩
      · intro hNil
        have hJoined := flatten_groups hSize (xs.drop size)
        rw [hNil] at hJoined
        exact hRest hJoined.symm
termination_by xs.length
decreasing_by
  rw [List.length_drop]
  omega

/-- Of the quotients of words only that of the least word by minus one does not
fit. -/
theorem toInt_div_of_pos {length size : Int64} (hLength : 0 ≤ length.toInt)
    (hSize : 0 < size.toInt) : (length / size).toInt = length.toInt / size.toInt := by
  have hBound := length.toInt_lt
  have hNonneg : 0 ≤ length.toInt / size.toInt := Int.ediv_nonneg hLength hSize.le
  have hLe : length.toInt / size.toInt ≤ length.toInt := Int.ediv_le_self _ hLength
  rw [Int64.toInt_div, Int.tdiv_eq_ediv_of_nonneg hLength, Int.bmod_eq_of_le] <;> omega

section Total

variable {lists : List (List α)}

end Total

section Flatten

variable (τ : Type) (generator : Generator) {nested : Stored (Stored α)}

end Flatten

end Sequences
