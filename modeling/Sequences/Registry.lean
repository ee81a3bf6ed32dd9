/-!
Values kept by name. A name that was never set has no value; setting it again
replaces the value in its place.
-/

namespace Sequences

variable {β : Type}

abbrev Registry (β : Type) := List (String × β)

namespace Registry

def set (name : String) (value : β) : Registry β → Registry β
  | [] => [(name, value)]
  | (other, kept) :: entries =>
    if other = name then (name, value) :: entries
    else (other, kept) :: set name value entries

theorem lookup_set (name other : String) (value : β) (entries : Registry β) :
    (set name value entries).lookup other =
      if other = name then some value else entries.lookup other := by
  induction entries with
  | nil =>
    by_cases hName : other = name
    · simp [set, hName]
    · simp [set, List.lookup_cons, hName, beq_eq_false_iff_ne.mpr hName]
  | cons entry entries ih =>
    obtain ⟨found, kept⟩ := entry
    by_cases hFound : found = name
    · subst hFound
      by_cases hOther : other = found
      · simp [set, hOther]
      · simp [set, List.lookup_cons, hOther, beq_eq_false_iff_ne.mpr hOther]
    · by_cases hOther : other = found
      · subst hOther
        simp [set, hFound]
      · simp [set, hFound, List.lookup_cons, beq_eq_false_iff_ne.mpr hOther, ih]

end Registry

end Sequences
