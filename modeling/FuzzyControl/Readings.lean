import FuzzyControl.Text.LowerCase

/-! # Readings

The readings of one evaluation: named numbers, one for each input. `Readings.value?` finds the reading
of a variable by its exact name or else by a name that differs only in case; of several such names the
least by code points counts, so the order in which readings are listed does not matter.
-/
namespace FuzzyControl

set_option autoImplicit false

abbrev Readings := List (String × Float)

namespace Readings

def verbatim? (readings : Readings) (name : String) : Option Float :=
  (readings.find? fun r => r.1 == name).map Prod.snd

/-- The reading with the lesser name, the earlier of two with one name. -/
def lesser (r s : String × Float) : String × Float :=
  if s.1 < r.1 then s else r

def least? : Readings → Option (String × Float)
  | [] => none
  | r :: rs =>
    match least? rs with
    | none => some r
    | some s => some (lesser r s)

/-- The readings whose names agree with `name` in lower case. -/
def alike (readings : Readings) (name : String) : Readings :=
  readings.filter fun r => Text.lowerCase r.1 == Text.lowerCase name

def value? (readings : Readings) (name : String) : Option Float :=
  (readings.verbatim? name).or ((least? (readings.alike name)).map Prod.snd)

theorem least?_eq_none_iff {readings : Readings} : least? readings = none ↔ readings = [] := by
  cases readings with
  | nil => simp [least?]
  | cons r rs => rw [least?]; split <;> simp

theorem mem_of_least? {readings : Readings} {r : String × Float} (h : least? readings = some r) :
    r ∈ readings := by
  induction readings generalizing r with
  | nil => cases h
  | cons s rs ih =>
    rw [least?] at h
    split at h
    · simp_all
    · rename_i t ht
      simp only [Option.some.injEq] at h
      subst h
      unfold lesser
      split
      · exact List.mem_cons_of_mem _ (ih ht)
      · exact List.mem_cons_self

theorem mem_alike {readings : Readings} {name : String} {r : String × Float} :
    r ∈ readings.alike name ↔ r ∈ readings ∧ Text.lowerCase r.1 = Text.lowerCase name := by
  simp [alike]

end Readings

end FuzzyControl
