import FuzzyControl.Antecedent

/-! # Rules

A rule "if the antecedent holds, then …" has at least one consequent: an output variable and the term
it takes.
-/
namespace FuzzyControl

set_option autoImplicit false

structure Rule where
  antecedent : Antecedent
  consequent : TermRef
  others : List TermRef
  deriving DecidableEq, Repr

namespace Rule

def consequents (r : Rule) : List TermRef := r.consequent :: r.others

def andThen (r : Rule) (ref : TermRef) : Rule := { r with others := r.others ++ [ref] }

@[simp] theorem consequents_andThen (r : Rule) (ref : TermRef) :
    (r.andThen ref).consequents = r.consequents ++ [ref] := rfl

end Rule

def Antecedent.implies (e : Antecedent) (ref : TermRef) : Rule := ⟨e, ref, []⟩

end FuzzyControl
