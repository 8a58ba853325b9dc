import FuzzyControl.Proofs.Building

/-! # Adding several rules

All rules are checked before the first is added, and each is checked again when its turn comes, with
those before it already there. Checking reads the variables only, so that the second check says what
the first said: the loop never stops on the way, and either all rules are added or none.
-/
namespace FuzzyControl.Controller

set_option autoImplicit false

variable {c d : Controller} {r : Rule} {rs : List Rule} {f : Fault}

theorem validate_eq_of_vars_eq (h : d.vars = c.vars) (r : Rule) : d.validate r = c.validate r := by
  unfold validate resolve
  rw [h]

theorem fault?_addRule (c : Controller) (r : Rule) : fault? (c.addRule r) = fault? (c.validate r) := by
  unfold addRule
  exact fault?_bind_of_total fun _ _ => rfl

theorem exists_addRule_iff : (∃ d, c.addRule r = .ok d) ↔ c.validate r = .ok () := by
  rw [← fault?_eq_none_iff, fault?_addRule, fault?_unit_eq_none_iff]

theorem addInTurn_eq_none_iff : c.addInTurn rs = (d, none) ↔ rs.foldlM addRule c = .ok d := by
  induction rs generalizing c with
  | nil => simp [addInTurn, pure, Except.pure]
  | cons r rs ih =>
    rw [addInTurn, List.foldlM_cons, bind_eq_ok_iff]
    cases h : c.addRule r with
    | ok e => simp [ih]
    | error f => simp

/-- The loop meets each rule with the verdict of the first pass, since only rules have been added. -/
theorem exists_addInTurn_of_valid {before after : List Rule}
    (h : ∀ q ∈ before ++ r :: after, c.validate q = .ok ()) :
    ∃ d, c.addInTurn before = (d, none) ∧ d.validate r = .ok () := by
  refine ⟨_, addInTurn_of_valid fun q hq => h q (List.mem_append_left _ hq), ?_⟩
  calc
    _ = c.validate r := validate_eq_of_vars_eq rfl r
    _ = .ok () := h r (List.mem_append_right _ List.mem_cons_self)

/-- The second check could be left out. -/
theorem addRules_eq (c : Controller) (rs : List Rule) :
    c.addRules rs = (do
      rs.forM c.validate
      pure { c with rules := c.rules ++ rs }) := by
  rw [addRules]
  cases h : rs.forM c.validate with
  | ok _ =>
    rw [admitRules_of_valid (forM_eq_ok_iff.mp h)]
    rfl
  | error f =>
    rw [admitRules_of_error h]
    rfl

theorem admitRules_eq (c : Controller) (rs : List Rule) :
    c.admitRules rs = match c.addRules rs with
      | .ok d => (d, none)
      | .error f => (c, some f) := by
  rw [addRules_eq]
  cases h : rs.forM c.validate with
  | ok _ => exact admitRules_of_valid (forM_eq_ok_iff.mp h)
  | error f => exact admitRules_of_error h

theorem addRules_eq_ok_iff :
    c.addRules rs = .ok d ↔
      (∀ r ∈ rs, c.validate r = .ok ()) ∧ d = { c with rules := c.rules ++ rs } := by
  rw [addRules_eq, bind_eq_ok_iff, ← forM_eq_ok_iff]
  constructor
  · rintro ⟨_, hValid, hAdd⟩
    cases hAdd
    exact ⟨hValid, rfl⟩
  · rintro ⟨hValid, rfl⟩
    exact ⟨(), hValid, rfl⟩

theorem fault?_addRules (c : Controller) (rs : List Rule) :
    fault? (c.addRules rs) = rs.findSome? fun r => fault? (c.addRule r) := by
  simp only [fault?_addRule, ← fault?_forM]
  rw [addRules_eq]
  exact fault?_bind_of_total fun _ _ => rfl

/-- Several rules are added exactly if each of them could be added alone, and then the outcome is that
of adding them in turn. Otherwise the fault is that of the first rule that could not, and nothing
changes. Once all have been checked, the check of none fails while they are added. -/
theorem addRules_atomic (c : Controller) (rs : List Rule) :
    ((∃ d, c.addRules rs = .ok d) ↔ ∀ r ∈ rs, ∃ d, c.addRule r = .ok d) ∧
    (∀ d, c.addRules rs = .ok d →
      c.admitRules rs = (d, none) ∧ d = { c with rules := c.rules ++ rs } ∧
        rs.foldlM addRule c = .ok d) ∧
    (∀ f, c.addRules rs = .error f →
      c.admitRules rs = (c, some f) ∧
        ∃ before r after, rs = before ++ r :: after ∧
          (∀ q ∈ before, ∃ d, c.addRule q = .ok d) ∧ c.addRule r = .error f) ∧
    (rs.forM c.validate = .ok () → ∀ before r after, rs = before ++ r :: after →
      ∃ d, c.addInTurn before = (d, none) ∧ d.validate r = .ok ()) := by
  refine ⟨?_, ?_, ?_, ?_⟩
  · simp only [exists_addRule_iff, addRules_eq_ok_iff, exists_and_left, exists_eq, and_true]
  · intro d h
    obtain ⟨hValid, hEq⟩ := addRules_eq_ok_iff.mp h
    have hTurn : c.addInTurn rs = (d, none) := by rw [addInTurn_of_valid hValid, hEq]
    exact ⟨by rw [admitRules_eq, h], hEq, addInTurn_eq_none_iff.mp hTurn⟩
  · intro f h
    have hFirst := fault?_eq_some_iff.mpr h
    rw [fault?_addRules, List.findSome?_eq_some_iff] at hFirst
    obtain ⟨before, r, after, hSplit, hFault, hBefore⟩ := hFirst
    refine ⟨by rw [admitRules_eq, h], before, r, after, hSplit, ?_, ?_⟩
    · intro q hq
      exact fault?_eq_none_iff.mp (hBefore q hq)
    · exact fault?_eq_some_iff.mp hFault
  · rintro h before r after rfl
    exact exists_addInTurn_of_valid (forM_eq_ok_iff.mp h)

-- a rule for a fan that is not there keeps out the two rules before it
example : (WaterHeater.controller .initial).admitRules
    (WaterHeater.rules ++ [Antecedent.implies (.about ⟨"Water", "Hot"⟩) ⟨"Fan", "Fast"⟩]) =
      (WaterHeater.controller .initial, some (.undeclaredVariable "Fan")) := rfl

end FuzzyControl.Controller
