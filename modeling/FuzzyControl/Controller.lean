import FuzzyControl.OutputSet
import FuzzyControl.Rule
import FuzzyControl.Settings

/-! # Controllers

A controller has linguistic variables, a sequence of rules and settings. Variables are kept by name,
and no two names agree in lower case, because readings are found that way. A rule is admitted only if
all its statements and consequents name terms of variables that are there, so that evaluation can fail
only for want of a reading.

An evaluation finds the firing strength of each rule (`firingStrengths`), collects what the firing
rules conclude (`conclusions`), gathers the conclusions by output (`aggregate`) and reduces each
output's set to one number (`defuzzify`).
-/
namespace FuzzyControl

set_option autoImplicit false

structure Controller where
  vars : Table Variable
  rules : List Rule
  settings : Settings

/-- What one consequent of a firing rule contributes to an output. -/
structure Conclusion where
  output : String
  contribution : Contribution

def OutputSet.gather (output : String) (cs : List Conclusion) : OutputSet :=
  (cs.filter fun c => c.output == output).foldl (fun s c => s.record c.contribution) (.empty output)

namespace Controller

def new (settings : Settings) : Controller := ⟨.empty, [], settings⟩

instance : Inhabited Controller := ⟨new .initial⟩

def setStrategy (c : Controller) (strategy : Strategy) : Controller :=
  { c with settings := c.settings.setStrategy strategy }

def setOutputStrategy (c : Controller) (output : String) (strategy : Strategy) : Controller :=
  { c with settings := c.settings.setOutputStrategy output strategy }

/-- Whether a variable is there whose name agrees in lower case. -/
def hasAlike (c : Controller) (name : String) : Bool :=
  c.vars.names.any fun n => Text.lowerCase n == Text.lowerCase name

def addVariable (c : Controller) (v : Variable) : Except Fault Controller :=
  if c.hasAlike v.name then .error (.duplicateVariable v.name)
  else .ok { c with vars := c.vars.insert v.name v }

/-- Adds variables one after the other up to the first that is refused; those before it stay. -/
def addVariables (c : Controller) : List Variable → Controller × Option Fault
  | [] => (c, none)
  | v :: vs =>
    match c.addVariable v with
    | .error f => (c, some f)
    | .ok d => d.addVariables vs

def resolve (c : Controller) (ref : TermRef) : Except Fault Shape :=
  match c.vars.find? ref.owner with
  | none => .error (.undeclaredVariable ref.owner)
  | some v =>
    match v.shape? ref.term with
    | none => .error (.undeclaredTerm ref.owner ref.term)
    | some shape => .ok shape

/-- Whether a rule may be added: no statement has a foreign term, and every statement and then every
consequent can be resolved. -/
def validate (c : Controller) (r : Rule) : Except Fault Unit := do
  match r.antecedent.foreign? with
  | some ref => .error (.undeclaredTerm ref.owner ref.term)
  | none =>
    (r.antecedent.atoms ++ r.consequents).forM fun ref => do
      let _ ← c.resolve ref

def addRule (c : Controller) (r : Rule) : Except Fault Controller := do
  c.validate r
  pure { c with rules := c.rules ++ [r] }

/-- Adds rules one after the other, each of them checked, up to the first that is refused; those before
it stay. -/
def addInTurn (c : Controller) : List Rule → Controller × Option Fault
  | [] => (c, none)
  | r :: rs =>
    match c.addRule r with
    | .error f => (c, some f)
    | .ok d => d.addInTurn rs

/-- Checks all rules, and adds them in turn if none is refused. -/
def admitRules (c : Controller) (rs : List Rule) : Controller × Option Fault :=
  match rs.forM c.validate with
  | .error f => (c, some f)
  | .ok () => c.addInTurn rs

/-- The controller with all of the rules, if none is refused. -/
def addRules (c : Controller) (rs : List Rule) : Except Fault Controller :=
  match c.admitRules rs with
  | (_, some f) => .error f
  | (d, none) => .ok d

/-- The variables that some rule concludes on, in ascending order. -/
def outputs (c : Controller) : List String :=
  (Table.ofList ((c.rules.flatMap Rule.consequents).map fun ref => (ref.owner, ()))).names

def firingStrengths (c : Controller) (readings : Readings) : Except Fault (List Degree) :=
  c.rules.mapM fun r => r.antecedent.evaluate c.vars readings

/-- What a rule of that strength concludes: nothing, unless it is positive. -/
def conclude (c : Controller) (r : Rule) (strength : Degree) : Except Fault (List Conclusion) :=
  if strength.isPositive then
    r.consequents.mapM fun ref => do
      let shape ← c.resolve ref
      pure ⟨ref.owner, ⟨ref.term, shape, strength⟩⟩
  else pure []

def conclusions (c : Controller) (readings : Readings) : Except Fault (List Conclusion) := do
  let cs ← c.rules.mapM fun r => do
    let strength ← r.antecedent.evaluate c.vars readings
    c.conclude r strength
  pure cs.flatten

def aggregate (c : Controller) (readings : Readings) : Except Fault (List OutputSet) := do
  let cs ← c.conclusions readings
  pure (c.outputs.map fun output => .gather output cs)

def defuzzify (c : Controller) (readings : Readings) :
    Except Fault (List (String × Except Fault Float)) := do
  let sets ← c.aggregate readings
  pure (sets.map fun s => (s.output, s.defuzzify (c.settings.strategyFor s.output)))

def defuzzifyAll (c : Controller) (rows : List Readings) :
    List (Except Fault (List (String × Except Fault Float))) :=
  rows.map c.defuzzify

@[simp] theorem output_gather (output : String) (cs : List Conclusion) :
    (OutputSet.gather output cs).output = output := by
  unfold OutputSet.gather
  generalize cs.filter (fun c => c.output == output) = ds
  suffices ∀ s : OutputSet, (ds.foldl (fun s c => s.record c.contribution) s).output = s.output from
    this _
  induction ds with
  | nil => exact fun _ => rfl
  | cons d ds ih => exact fun s => (ih _).trans (OutputSet.output_record _ _)

theorem addVariable_eq_ok_iff {c d : Controller} {v : Variable} :
    c.addVariable v = .ok d ↔
      c.hasAlike v.name = false ∧ d = { c with vars := c.vars.insert v.name v } := by
  unfold addVariable
  cases c.hasAlike v.name with
  | true => simp
  | false => simpa using eq_comm

theorem resolve_eq_ok_iff {c : Controller} {ref : TermRef} {shape : Shape} :
    c.resolve ref = .ok shape ↔
      ∃ v, c.vars.find? ref.owner = some v ∧ v.shape? ref.term = some shape := by
  unfold resolve
  split
  · simp_all
  · split <;> simp_all

end Controller

end FuzzyControl
