import FuzzyControl.Degree
import FuzzyControl.Strategy

/-! # Fuzzy sets of outputs

After the rules have fired, an output variable has a set: for each of its terms that received a firing
strength, the greatest such strength, in the order in which the terms first did. `OutputSet.record`
adds one strength, `membership` is the max-min composition, and `defuzzify` reduces the set to the mean
of one point a shape, weighted by strength.
-/
namespace FuzzyControl

set_option autoImplicit false

structure Contribution where
  term : String
  shape : Shape
  strength : Degree

/-- The lesser of the strength and of the degree of `y` in the shape. -/
def Contribution.degreeAt (y : Float) (k : Contribution) : Degree :=
  k.strength.and (Degree.clamp (k.shape.grade y))

structure OutputSet where
  output : String
  contributions : List Contribution

namespace OutputSet

def empty (output : String) : OutputSet := ⟨output, []⟩

/-- Merges a contribution into others: a term that is present keeps its place and its shape and takes
the greater strength, a new term comes last. -/
def merge (c : Contribution) : List Contribution → List Contribution
  | [] => [c]
  | d :: ds =>
    if d.term = c.term then { d with strength := d.strength.or c.strength } :: ds
    else d :: merge c ds

/-- Adds a firing strength; one that is not positive leaves no trace. -/
def record (s : OutputSet) (c : Contribution) : OutputSet :=
  if c.strength.isPositive then { s with contributions := merge c s.contributions } else s

/-- A sum of doubles from the left. The sum of nothing is negative zero, the neutral element of
addition for every number, both zeros included. -/
def sum (xs : List Float) : Float := xs.foldl (· + ·) (-0.0)

def total (s : OutputSet) : Float := sum (s.contributions.map fun c => c.strength.value)

/-- The degree of `y` in the set: the greatest of its degrees in the contributions. -/
def membership (s : OutputSet) (y : Float) : Degree :=
  (s.contributions.map (Contribution.degreeAt y)).foldl Degree.or Degree.zero

def moment (s : OutputSet) (strategy : Strategy) : Float :=
  sum (s.contributions.map fun c => c.strength.value * strategy.point c.shape)

def defuzzify (s : OutputSet) (strategy : Strategy) : Except Fault Float :=
  if s.total ≤ 0.0 then .error (.noApplicableRule s.output)
  else .ok (s.moment strategy / s.total)

@[simp] theorem output_record (s : OutputSet) (c : Contribution) :
    (s.record c).output = s.output := by
  unfold record; split <;> rfl

theorem map_term_merge (c : Contribution) (ds : List Contribution) :
    (merge c ds).map Contribution.term =
      if c.term ∈ ds.map Contribution.term then ds.map Contribution.term
      else ds.map Contribution.term ++ [c.term] := by
  induction ds with
  | nil => simp [merge]
  | cons d ds ih =>
    rw [merge]
    split
    · simp_all
    · rename_i h
      simp only [List.map_cons, ih, List.mem_cons, Ne.symm h, false_or]
      split <;> simp

end OutputSet

end FuzzyControl
