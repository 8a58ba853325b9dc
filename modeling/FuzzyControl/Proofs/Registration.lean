import Mathlib
import FuzzyControl.Proofs.Building

/-! # Registering variables

The names of variables are told apart by their lower case. A list of variables is `Fresh` if no name
among them agrees in lower case with another or with one that is taken; such a list is registered as a
whole, in any order with the same result, and of any other list only what comes before the first
variable that is not fresh. `perform_cases` says what an operation can do at all: it registers fresh
variables, adds rules at the end, or changes settings, and so nothing that is there is lost.
-/
namespace FuzzyControl.Controller

set_option autoImplicit false

structure Fresh (c : Controller) (vs : List Variable) : Prop where
  distinct : vs.Pairwise fun v w => Text.lowerCase v.name ≠ Text.lowerCase w.name
  unused : ∀ v ∈ vs, ∀ name ∈ c.vars.names, Text.lowerCase name ≠ Text.lowerCase v.name

/-- The controller with further variables, whatever their names are. -/
def enter (c : Controller) (vs : List Variable) : Controller :=
  { c with vars := vs.foldl (fun t v => t.insert v.name v) c.vars }

def Distinct (c : Controller) : Prop :=
  c.vars.names.Pairwise fun m n => Text.lowerCase m ≠ Text.lowerCase n

section

variable {c : Controller} {v : Variable} {vs ws : List Variable}

@[simp] theorem rules_enter (c : Controller) (vs : List Variable) : (c.enter vs).rules = c.rules := rfl

theorem hasAlike_eq_false_iff {name : String} :
    c.hasAlike name = false ↔ ∀ n ∈ c.vars.names, Text.lowerCase n ≠ Text.lowerCase name := by
  rw [hasAlike, List.any_eq_false]
  simp only [beq_iff_eq]

theorem fresh_nil (c : Controller) : c.Fresh [] := by
  constructor
  · exact .nil
  · intro v hv
    cases hv

theorem fresh_cons_iff : c.Fresh (v :: vs) ↔ c.hasAlike v.name = false ∧ (c.enter [v]).Fresh vs := by
  have hNames : ∀ name, name ∈ (c.enter [v]).vars.names ↔ name = v.name ∨ name ∈ c.vars.names :=
    fun _ => Table.mem_names_insert
  rw [hasAlike_eq_false_iff]
  constructor
  · rintro ⟨hDistinct, hUnused⟩
    obtain ⟨hv, hvs⟩ := List.pairwise_cons.mp hDistinct
    refine ⟨hUnused v List.mem_cons_self, hvs, ?_⟩
    intro w hw name hName
    obtain rfl | hName := (hNames name).mp hName
    · exact hv w hw
    · exact hUnused w (List.mem_cons_of_mem _ hw) name hName
  · rintro ⟨hv, hDistinct, hUnused⟩
    constructor
    · refine List.pairwise_cons.mpr ⟨?_, hDistinct⟩
      intro w hw
      exact hUnused w hw v.name ((hNames _).mpr (.inl rfl))
    · rw [List.forall_mem_cons]
      exact ⟨hv, fun w hw name hName => hUnused w hw name ((hNames name).mpr (.inr hName))⟩

theorem Fresh.perm (h : c.Fresh vs) (hPerm : ws.Perm vs) : c.Fresh ws := by
  constructor
  · exact (hPerm.pairwise_iff fun hNe => hNe.symm).mpr h.distinct
  · intro w hw
    exact h.unused w (hPerm.mem_iff.mp hw)

theorem Fresh.entries_perm (h : c.Fresh vs) :
    (c.enter vs).vars.entries.Perm (c.vars.entries ++ vs.map fun v => (v.name, v)) := by
  induction vs generalizing c with
  | nil =>
    rw [List.map_nil, List.append_nil]
    exact .refl _
  | cons v vs ih =>
    obtain ⟨hNew, hRest⟩ := fresh_cons_iff.mp h
    have hName : ∀ e ∈ c.vars.entries, e.1 ≠ v.name := by
      intro e he hEq
      exact hasAlike_eq_false_iff.mp hNew e.1 (List.mem_map_of_mem he) (congrArg _ hEq)
    calc
      (c.enter (v :: vs)).vars.entries
        |>.Perm ((c.enter [v]).vars.entries ++ vs.map fun v => (v.name, v)) := ih hRest
      _ |>.Perm (((v.name, v) :: c.vars.entries) ++ vs.map fun v => (v.name, v)) :=
        (Table.insertEntry_perm hName v).append_right _
      _ |>.Perm (c.vars.entries ++ (v :: vs).map fun v => (v.name, v)) := List.perm_middle.symm

theorem Fresh.mem_entries_iff (h : c.Fresh vs) {e : String × Variable} :
    e ∈ (c.enter vs).vars.entries ↔ e ∈ c.vars.entries ∨ ∃ v ∈ vs, (v.name, v) = e := by
  rw [h.entries_perm.mem_iff, List.mem_append, List.mem_map]

theorem Fresh.enter_eq_of_perm (h : c.Fresh vs) (hPerm : ws.Perm vs) : c.enter ws = c.enter vs := by
  have hVars : (c.enter ws).vars = (c.enter vs).vars := by
    apply Table.ext_mem
    intro e
    rw [(h.perm hPerm).mem_entries_iff, h.mem_entries_iff]
    simp only [hPerm.mem_iff]
  exact congrArg (fun t => { c with vars := t }) hVars

theorem Fresh.addVariables_eq (h : c.Fresh vs) : c.addVariables vs = (c.enter vs, none) := by
  induction vs generalizing c with
  | nil => rfl
  | cons v vs ih =>
    obtain ⟨hNew, hRest⟩ := fresh_cons_iff.mp h
    rw [addVariables, addVariable_eq_ok_iff.mpr ⟨hNew, rfl⟩]
    exact ih hRest

/-- The first variable that is not fresh after those before it is the one reported. -/
theorem addVariables_of_not_fresh (h : ¬ c.Fresh vs) :
    ∃ before v after, vs = before ++ v :: after ∧ c.Fresh before ∧ ¬ c.Fresh (before ++ [v]) ∧
      c.addVariables vs = (c.enter before, some (.duplicateVariable v.name)) := by
  induction vs generalizing c with
  | nil => exact absurd (fresh_nil c) h
  | cons v vs ih =>
    rw [fresh_cons_iff] at h
    cases hAlike : c.hasAlike v.name with
    | true =>
      refine ⟨[], v, vs, rfl, fresh_nil c, ?_, ?_⟩
      · rw [List.nil_append, fresh_cons_iff, hAlike]
        exact nofun
      · rw [addVariables, addVariable, hAlike]
        rfl
    | false =>
      obtain ⟨before, w, after, rfl, hFresh, hNot, hAdd⟩ := ih (mt (And.intro hAlike) h)
      refine ⟨v :: before, w, after, rfl, fresh_cons_iff.mpr ⟨hAlike, hFresh⟩, ?_, ?_⟩
      · rw [List.cons_append, fresh_cons_iff]
        exact fun hBoth => hNot hBoth.2
      · rw [addVariables, addVariable_eq_ok_iff.mpr ⟨hAlike, rfl⟩]
        exact hAdd

theorem addVariables_snd_eq_none_iff : (c.addVariables vs).2 = none ↔ c.Fresh vs := by
  constructor
  · intro h
    by_contra hNot
    obtain ⟨_, _, _, -, -, -, hAdd⟩ := addVariables_of_not_fresh hNot
    rw [hAdd] at h
    cases h
  · intro h
    rw [h.addVariables_eq]

theorem addVariables_cases (c : Controller) (vs : List Variable) :
    ∃ ws, c.Fresh ws ∧ (c.addVariables vs).1 = c.enter ws := by
  by_cases h : c.Fresh vs
  · exact ⟨vs, h, by rw [h.addVariables_eq]⟩
  · obtain ⟨before, _, _, -, hFresh, -, hAdd⟩ := addVariables_of_not_fresh h
    exact ⟨before, hFresh, by rw [hAdd]⟩

end

theorem perform_cases (c : Controller) (op : Operation) :
    (∃ vs, c.Fresh vs ∧ c.perform op = c.enter vs) ∨
    (∃ rs, (∀ r ∈ rs, c.validate r = .ok ()) ∧
      c.perform op = { c with rules := c.rules ++ rs }) ∨
    (∃ settings, c.perform op = { c with settings }) := by
  cases op with
  | addVariable v =>
    left
    rw [perform]
    obtain ⟨d, h, hEq⟩ | hEq := getD_cases (c.addVariable v) c <;> rw [hEq]
    · obtain ⟨hNew, rfl⟩ := addVariable_eq_ok_iff.mp h
      exact ⟨[v], fresh_cons_iff.mpr ⟨hNew, fresh_nil _⟩, rfl⟩
    · exact ⟨[], fresh_nil c, rfl⟩
  | addVariables vs => exact .inl (addVariables_cases c vs)
  | addRule r =>
    right
    left
    rw [perform]
    obtain ⟨d, h, hEq⟩ | hEq := getD_cases (c.addRule r) c <;> rw [hEq]
    · obtain ⟨hValid, rfl⟩ := addRule_eq_ok_iff.mp h
      exact ⟨[r], List.forall_mem_singleton.mpr hValid, rfl⟩
    · exact ⟨[], List.forall_mem_nil _, by rw [List.append_nil]⟩
  | addRules rs => exact .inr (.inl (admitRules_cases c rs))
  | setStrategy strategy => exact .inr (.inr ⟨_, rfl⟩)
  | setOutputStrategy output strategy => exact .inr (.inr ⟨_, rfl⟩)

theorem Reachable.induct {P : Controller → Prop} (hNew : ∀ settings, P (new settings))
    (hStep : ∀ c op, P c → P (c.perform op)) {c : Controller} (hc : c.Reachable) : P c := by
  obtain ⟨settings, ops, rfl⟩ := hc
  induction ops using List.reverseRecOn with
  | nil => exact hNew settings
  | append_singleton ops op ih =>
    rw [run, List.foldl_append]
    exact hStep _ op ih

theorem Distinct.perform {c : Controller} (hc : c.Distinct) (op : Operation) :
    (c.perform op).Distinct := by
  obtain ⟨vs, hFresh, hEq⟩ | ⟨rs, -, hEq⟩ | ⟨settings, hEq⟩ := perform_cases c op
  · have hNames : (c.enter vs).vars.names.Perm (c.vars.names ++ vs.map Variable.name) := by
      have hMap := hFresh.entries_perm.map Prod.fst
      rwa [List.map_append, List.map_map] at hMap
    rw [hEq, Distinct, hNames.pairwise_iff fun hNe => hNe.symm, List.pairwise_append,
      List.pairwise_map]
    refine ⟨hc, hFresh.distinct, ?_⟩
    intro name hName w hw
    obtain ⟨v, hv, rfl⟩ := List.mem_map.mp hw
    exact hFresh.unused v hv name hName
  · rw [hEq]
    exact hc
  · rw [hEq]
    exact hc

theorem Reachable.distinct {c : Controller} (hc : c.Reachable) : c.Distinct :=
  hc.induct (fun _ => .nil) fun _ op h => h.perform op

theorem mem_entries_perform (c : Controller) (op : Operation) {e : String × Variable}
    (he : e ∈ c.vars.entries) : e ∈ (c.perform op).vars.entries := by
  obtain ⟨vs, hFresh, hEq⟩ | ⟨rs, -, hEq⟩ | ⟨settings, hEq⟩ := perform_cases c op
  · rw [hEq, hFresh.mem_entries_iff]
    exact .inl he
  · rw [hEq]
    exact he
  · rw [hEq]
    exact he

theorem rules_prefix_perform (c : Controller) (op : Operation) : c.rules <+: (c.perform op).rules := by
  obtain ⟨vs, -, hEq⟩ | ⟨rs, -, hEq⟩ | ⟨settings, hEq⟩ := perform_cases c op
  · rw [hEq, rules_enter]
  · rw [hEq]
    exact List.prefix_append _ _
  · rw [hEq]

/-- Whatever operations built a controller: its names differ in lower case, each variable is kept under
its own name, and no operation touches a variable or a rule that is there. Several variables are
registered together if they are fresh, in any order with the same result; otherwise those before the
first that is not fresh are, and nothing else changes. -/
theorem variables_of_reachable {c : Controller} (hc : c.Reachable) :
    (c.vars.names.Pairwise fun m n => Text.lowerCase m ≠ Text.lowerCase n) ∧
    (∀ e ∈ c.vars.entries, e.2.name = e.1) ∧
    (∀ op, (∀ e ∈ c.vars.entries, e ∈ (c.perform op).vars.entries) ∧
      c.rules <+: (c.perform op).rules) ∧
    (∀ vs, (c.addVariables vs).2 = none ↔
      (vs.map fun v => Text.lowerCase v.name).Nodup ∧
        ∀ v ∈ vs, ∀ name ∈ c.vars.names, Text.lowerCase name ≠ Text.lowerCase v.name) ∧
    (∀ vs, (c.addVariables vs).2 = none →
      (c.addVariables vs).1.vars.entries.Perm (c.vars.entries ++ vs.map fun v => (v.name, v)) ∧
        (c.addVariables vs).1.rules = c.rules ∧ (c.addVariables vs).1.settings = c.settings ∧
        ∀ ws, ws.Perm vs → c.addVariables ws = c.addVariables vs) ∧
    (∀ vs fault, (c.addVariables vs).2 = some fault →
      ∃ before v after, vs = before ++ v :: after ∧ fault = .duplicateVariable v.name ∧
        c.Fresh before ∧ ¬ c.Fresh (before ++ [v]) ∧
        (c.addVariables vs).1.vars.entries.Perm
          (c.vars.entries ++ before.map fun v => (v.name, v)) ∧
        (c.addVariables vs).1.rules = c.rules ∧ (c.addVariables vs).1.settings = c.settings) := by
  refine ⟨hc.distinct, ?_, ?_, ?_, ?_, ?_⟩
  · intro e he
    exact hc.wellFormed.named e.1 e.2 (Table.find?_eq_some_iff.mpr he)
  · intro op
    exact ⟨fun _ => mem_entries_perform c op, rules_prefix_perform c op⟩
  · intro vs
    rw [addVariables_snd_eq_none_iff, List.nodup_iff_pairwise_ne, List.pairwise_map]
    exact ⟨fun h => ⟨h.distinct, h.unused⟩, fun h => ⟨h.1, h.2⟩⟩
  · intro vs hOk
    have hFresh := addVariables_snd_eq_none_iff.mp hOk
    rw [hFresh.addVariables_eq]
    refine ⟨hFresh.entries_perm, rfl, rfl, ?_⟩
    intro ws hPerm
    rw [(hFresh.perm hPerm).addVariables_eq, hFresh.enter_eq_of_perm hPerm]
  · intro vs fault hFault
    have hNot : ¬ c.Fresh vs := by
      intro hFresh
      rw [hFresh.addVariables_eq] at hFault
      cases hFault
    obtain ⟨before, v, after, hSplit, hFresh, hLast, hAdd⟩ := addVariables_of_not_fresh hNot
    rw [hAdd] at hFault ⊢
    cases hFault
    exact ⟨before, v, after, hSplit, rfl, hFresh, hLast, hFresh.entries_perm, rfl, rfl⟩

/-- Two new variables in both orders, and a name that differs from one that is taken in case only. -/
theorem variables_waterHeater :
    (WaterHeater.controller .initial).Reachable ∧
    ((WaterHeater.controller .initial).addVariables [.named "Fan", .named "Air"]).2 = none ∧
    (WaterHeater.controller .initial).addVariables [.named "Air", .named "Fan"] =
      (WaterHeater.controller .initial).addVariables [.named "Fan", .named "Air"] ∧
    ((WaterHeater.controller .initial).addVariables
      [.named "Fan", .named "POWER", .named "Air"]).2 = some (.duplicateVariable "POWER") ∧
    ((WaterHeater.controller .initial).addVariables
      [.named "Fan", .named "POWER", .named "Air"]).1.rules = WaterHeater.rules := by
  have hReachable := WaterHeater.reachable .initial
  obtain ⟨-, -, -, hOk, hAll, hFirst⟩ := variables_of_reachable hReachable
  have hNone : ((WaterHeater.controller .initial).addVariables [.named "Fan", .named "Air"]).2 =
      none := (hOk _).mpr (by decide)
  have hSome : ((WaterHeater.controller .initial).addVariables
      [.named "Fan", .named "POWER", .named "Air"]).2 = some (.duplicateVariable "POWER") := by
    decide
  obtain ⟨-, -, -, hOrder⟩ := hAll _ hNone
  obtain ⟨_, _, _, -, -, -, -, -, hRules, -⟩ := hFirst _ _ hSome
  exact ⟨hReachable, hNone, hOrder _ (.swap _ _ _), hSome, hRules⟩

end FuzzyControl.Controller
