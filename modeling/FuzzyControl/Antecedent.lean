import FuzzyControl.Degree
import FuzzyControl.Readings
import FuzzyControl.Table
import FuzzyControl.Variable

/-! # Antecedents

The condition of a rule: a tree with statements "variable is term" at its leaves, joined by "and",
"or" and "not". A leaf remembers the variable that declared its term, which differs from the variable
it speaks of if it was made from a foreign reference. `Antecedent.evaluate` finds the degree of a
condition; both sides of a node are evaluated, the left one first, so the fault reported is that of the
leftmost statement that has one.
-/
namespace FuzzyControl

set_option autoImplicit false

inductive Antecedent where
  | is (owner term declaredIn : String)
  | and (l r : Antecedent)
  | or (l r : Antecedent)
  | not (e : Antecedent)
  deriving DecidableEq, Repr

/-- The statement that the variable `v` is the term `ref`, whichever variable declared it. -/
def Variable.is (v : Variable) (ref : TermRef) : Antecedent := .is v.name ref.term ref.owner

def Variable.isNot (v : Variable) (ref : TermRef) : Antecedent := .not (v.is ref)

namespace Antecedent

def about (ref : TermRef) : Antecedent := .is ref.owner ref.term ref.owner

def atoms : Antecedent → List TermRef
  | is owner term _ => [⟨owner, term⟩]
  | and l r => l.atoms ++ r.atoms
  | or l r => l.atoms ++ r.atoms
  | not e => e.atoms

/-- The leftmost statement whose term was declared by another variable. -/
def foreign? : Antecedent → Option TermRef
  | is owner term declaredIn => if owner = declaredIn then none else some ⟨owner, term⟩
  | and l r => l.foreign?.or r.foreign?
  | or l r => l.foreign?.or r.foreign?
  | not e => e.foreign?

def atomDegree (vars : Table Variable) (readings : Readings) (a : TermRef) :
    Except Fault Degree :=
  match vars.find? a.owner with
  | none => .error (.undeclaredVariable a.owner)
  | some v =>
    match v.shape? a.term with
    | none => .error (.undeclaredTerm a.owner a.term)
    | some shape =>
      match readings.value? a.owner with
      | none => .error (.noReading a.owner)
      | some x => .ok (Degree.clamp (shape.grade x))

def evaluate (vars : Table Variable) (readings : Readings) :
    Antecedent → Except Fault Degree
  | is owner term _ => atomDegree vars readings ⟨owner, term⟩
  | and l r => do
    let a ← l.evaluate vars readings
    let b ← r.evaluate vars readings
    pure (a.and b)
  | or l r => do
    let a ← l.evaluate vars readings
    let b ← r.evaluate vars readings
    pure (a.or b)
  | not e => do
    let a ← e.evaluate vars readings
    pure a.not

@[simp] theorem foreign?_about (ref : TermRef) : (about ref).foreign? = none := by
  simp [about, foreign?]

end Antecedent

end FuzzyControl
