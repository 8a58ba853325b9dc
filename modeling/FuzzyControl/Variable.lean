import FuzzyControl.Fault

/-! # Linguistic variables

A variable is a name with an ordered list of terms, each a named shape. It serves as a domain of
inputs and of outputs alike. Terms are found by name, the first of that name counting, and
`Variable.declare` admits a term only if its shape has no flaw and its name is new.
-/
namespace FuzzyControl

set_option autoImplicit false

structure Term where
  name : String
  shape : Shape

structure Variable where
  name : String
  terms : List Term

/-- A term of a variable, by name: what a rule speaks of. -/
structure TermRef where
  owner : String
  term : String
  deriving DecidableEq, Repr

namespace Variable

def named (name : String) : Variable := ⟨name, []⟩

def shape? (v : Variable) (term : String) : Option Shape :=
  (v.terms.find? fun t => t.name == term).map Term.shape

/-- A further term at the end, with the reference to it. A flaw of the shape counts before a name
that is taken. -/
def declare (v : Variable) (term : String) (shape : Shape) : Except Fault (Variable × TermRef) :=
  match shape.flaw? with
  | some flaw => .error (.invalidShape term flaw)
  | none =>
    if (v.shape? term).isSome then .error (.duplicateTerm v.name term)
    else .ok ({ v with terms := v.terms ++ [⟨term, shape⟩] }, ⟨v.name, term⟩)

def grades (v : Variable) (x : Float) : List (String × Float) :=
  v.terms.map fun t => (t.name, t.shape.grade x)

theorem shape?_eq_none_iff (v : Variable) (term : String) :
    v.shape? term = none ↔ ∀ t ∈ v.terms, t.name ≠ term := by
  simp [shape?]

theorem declare_eq_ok_iff {v w : Variable} {term : String} {shape : Shape} {ref : TermRef} :
    v.declare term shape = .ok (w, ref) ↔
      shape.flaw? = none ∧ v.shape? term = none ∧
        w = ⟨v.name, v.terms ++ [⟨term, shape⟩]⟩ ∧ ref = ⟨v.name, term⟩ := by
  unfold declare
  split
  · simp_all
  · rename_i hflaw
    cases hterm : v.shape? term with
    | some _ => simp
    | none =>
      simp only [Option.isSome_none, Bool.false_eq_true, if_false, Except.ok.injEq, Prod.mk.injEq,
        hflaw, true_and]
      exact and_congr eq_comm eq_comm

end Variable

end FuzzyControl
