import FuzzyControl.Shape

/-! # Faults

Every way in which building or consulting a controller can fail, and the text that reports it.
-/
namespace FuzzyControl

set_option autoImplicit false

inductive Fault where
  | noReading (input : String)
  /-- A statement is about a variable that the controller does not have. -/
  | undeclaredVariable (owner : String)
  /-- A statement names a term that the variable does not declare. -/
  | undeclaredTerm (owner term : String)
  | noApplicableRule (output : String)
  | invalidShape (term : String) (flaw : ShapeFlaw)
  | duplicateVariable (owner : String)
  | duplicateTerm (owner term : String)
  | unknownStrategy (name : String)
  deriving DecidableEq, Repr

namespace Fault

def message : Fault → String
  | noReading input => "variável '" ++ input ++ "' sem valor na entrada"
  | undeclaredVariable owner => "variável '" ++ owner ++ "' não registrada no motor"
  | undeclaredTerm owner term =>
    "forma '" ++ term ++ "' não declarada na variável '" ++ owner ++ "'"
  | noApplicableRule output => "nenhuma regra aplicável à variável de saída '" ++ output ++ "'"
  | invalidShape term flaw => "forma '" ++ term ++ "' inválida: " ++ flaw.message
  | duplicateVariable owner => "variável '" ++ owner ++ "' já registrada"
  | duplicateTerm owner term => "forma '" ++ term ++ "' já declarada na variável '" ++ owner ++ "'"
  | unknownStrategy name =>
    "configuração inválida: estratégia de defuzzificação desconhecida: '" ++ name ++ "'"

end Fault

end FuzzyControl
