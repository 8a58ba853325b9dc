import FuzzyControl.Codec.Variable
import FuzzyControl.Proofs.Building
import Mathlib.Data.List.Nodup

/-! # Declared terms and read terms

A variable is sound if its terms have different names and shapes without a flaw. Declaring a term asks
for both, against the terms that are there; reading a variable from a text asks for neither, nor does
registering it. So a variable is a read part followed by a declared part (`Declared`), it is sound if
its read part is, and controllers have unsound variables exactly if an unsound one can be read.
-/
namespace FuzzyControl

set_option autoImplicit false

/-- The variables that an operation brings in. -/
def Operation.variables : Operation → List Variable
  | addVariable v => [v]
  | addVariables vs => vs
  | _ => []

namespace Controller

/-- Controllers that are built with variables of some kind only. -/
def BuiltFrom (P : Variable → Prop) (c : Controller) : Prop :=
  ∃ (settings : Settings) (ops : List Operation),
    (∀ op ∈ ops, ∀ v ∈ op.variables, P v) ∧ (new settings).run ops = c

theorem mem_entries_addVariable {c d : Controller} {v : Variable} (h : c.addVariable v = .ok d)
    {e : String × Variable} (he : e ∈ d.vars.entries) : e ∈ c.vars.entries ∨ e.2 = v := by
  obtain ⟨-, rfl⟩ := addVariable_eq_ok_iff.mp h
  obtain rfl | hOld := Table.mem_insertEntry he
  · exact .inr rfl
  · exact .inl hOld

theorem mem_entries_addVariables {c : Controller} {vs : List Variable} {e : String × Variable}
    (he : e ∈ (c.addVariables vs).1.vars.entries) : e ∈ c.vars.entries ∨ e.2 ∈ vs := by
  induction vs generalizing c with
  | nil => exact .inl he
  | cons v vs ih =>
    rw [addVariables] at he
    cases h : c.addVariable v with
    | error f =>
      rw [h] at he
      exact .inl he
    | ok d =>
      rw [h] at he
      obtain hMem | hLater := ih he
      · obtain hOld | rfl := mem_entries_addVariable h hMem
        · exact .inl hOld
        · exact .inr List.mem_cons_self
      · exact .inr (List.mem_cons_of_mem _ hLater)

theorem mem_entries_of_perform {c : Controller} {op : Operation} {e : String × Variable}
    (he : e ∈ (c.perform op).vars.entries) : e ∈ c.vars.entries ∨ e.2 ∈ op.variables := by
  cases op with
  | addVariable v =>
    rw [perform] at he
    obtain ⟨d, h, hEq⟩ | hEq := getD_cases (c.addVariable v) c <;> rw [hEq] at he
    · obtain hOld | rfl := mem_entries_addVariable h he
      · exact .inl hOld
      · exact .inr (List.mem_singleton_self _)
    · exact .inl he
  | addVariables vs => exact mem_entries_addVariables he
  | addRule r =>
    rw [perform] at he
    obtain ⟨d, h, hEq⟩ | hEq := getD_cases (c.addRule r) c <;> rw [hEq] at he
    · obtain ⟨-, rfl⟩ := addRule_eq_ok_iff.mp h
      exact .inl he
    · exact .inl he
  | addRules rs =>
    obtain ⟨added, -, hEq⟩ := admitRules_cases c rs
    rw [perform, hEq] at he
    exact .inl he
  | setStrategy strategy => exact .inl he
  | setOutputStrategy output strategy => exact .inl he

theorem mem_entries_of_run {c : Controller} {ops : List Operation} {e : String × Variable}
    (he : e ∈ (c.run ops).vars.entries) : e ∈ c.vars.entries ∨ ∃ op ∈ ops, e.2 ∈ op.variables := by
  induction ops generalizing c with
  | nil => exact .inl he
  | cons op ops ih =>
    obtain hMem | ⟨o, ho, hLater⟩ := ih he
    · exact (mem_entries_of_perform hMem).imp_right fun hNew => ⟨op, List.mem_cons_self, hNew⟩
    · exact .inr ⟨o, List.mem_cons_of_mem _ ho, hLater⟩

theorem BuiltFrom.of_mem {P : Variable → Prop} {c : Controller} (hc : c.BuiltFrom P)
    {e : String × Variable} (he : e ∈ c.vars.entries) : P e.2 := by
  obtain ⟨settings, ops, hOps, rfl⟩ := hc
  obtain hNone | ⟨op, hop, hMem⟩ := mem_entries_of_run he
  · cases hNone
  · exact hOps op hop e.2 hMem

theorem exists_builtFrom {P : Variable → Prop} {v : Variable} (hv : P v) :
    ∃ c : Controller, c.BuiltFrom P ∧ (v.name, v) ∈ c.vars.entries := by
  refine ⟨(new .initial).run [.addVariable v], ⟨.initial, [.addVariable v], ?_, rfl⟩, ?_⟩
  · intro op hop w hw
    rw [List.mem_singleton.mp hop] at hw
    rwa [List.mem_singleton.mp hw]
  · exact List.mem_singleton_self _

end Controller

namespace Variable

structure Sound (v : Variable) : Prop where
  distinct : (v.terms.map Term.name).Nodup
  flawless : ∀ t ∈ v.terms, t.shape.flaw? = none

/-- The variables that there are if some texts are read. -/
inductive Made (admits : String → Prop) : Variable → Prop where
  | named (name : String) : Made admits (.named name)
  | read {text : String} {v : Variable} (hText : admits text) (hRead : parse text = .ok v) :
      Made admits v
  | declare {v w : Variable} {term : String} {shape : Shape} {ref : TermRef}
      (hv : Made admits v) (hDeclare : v.declare term shape = .ok (w, ref)) : Made admits w

/-- What is declared by and by for a variable that has the terms `old`. -/
structure Declared (old added : List Term) : Prop where
  distinct : (added.map Term.name).Nodup
  fresh : ∀ t ∈ added, t.name ∉ old.map Term.name
  flawless : ∀ t ∈ added, t.shape.flaw? = none

theorem declared_nil (old : List Term) : Declared old [] := by
  constructor <;> simp

theorem Declared.declare {old added : List Term} {v w : Variable} {term : String} {shape : Shape}
    {ref : TermRef} (h : Declared old added) (hTerms : v.terms = old ++ added)
    (hDeclare : v.declare term shape = .ok (w, ref)) :
    w.terms = old ++ (added ++ [⟨term, shape⟩]) ∧ Declared old (added ++ [⟨term, shape⟩]) := by
  obtain ⟨hFlaw, hNew, rfl, -⟩ := declare_eq_ok_iff.mp hDeclare
  rw [shape?_eq_none_iff, hTerms, List.forall_mem_append] at hNew
  refine ⟨by rw [hTerms, List.append_assoc], ?_⟩
  constructor
  · rw [List.map_append, List.nodup_append]
    refine ⟨h.distinct, List.nodup_singleton _, ?_⟩
    intro name hName other hOther
    obtain ⟨t, ht, rfl⟩ := List.mem_map.mp hName
    rw [List.mem_singleton.mp hOther]
    exact hNew.2 t ht
  · refine List.forall_mem_append.mpr ⟨h.fresh, List.forall_mem_singleton.mpr ?_⟩
    rw [List.mem_map]
    rintro ⟨t, ht, hName⟩
    exact hNew.1 t ht hName
  · exact List.forall_mem_append.mpr ⟨h.flawless, List.forall_mem_singleton.mpr hFlaw⟩

theorem Declared.sound_iff {v : Variable} {old added : List Term} (h : Declared old added)
    (hTerms : v.terms = old ++ added) : v.Sound ↔ Sound ⟨v.name, old⟩ := by
  obtain ⟨name, terms⟩ := v
  obtain rfl : terms = old ++ added := hTerms
  constructor
  · rintro ⟨hDistinct, hFlawless⟩
    rw [List.map_append] at hDistinct
    exact ⟨(List.nodup_append.mp hDistinct).1, fun t ht => hFlawless t (List.mem_append_left _ ht)⟩
  · rintro ⟨hDistinct, hFlawless⟩
    constructor
    · rw [List.map_append, List.nodup_append]
      refine ⟨hDistinct, h.distinct, ?_⟩
      rintro other hOld _ hNew rfl
      obtain ⟨t, ht, rfl⟩ := List.mem_map.mp hNew
      exact h.fresh t ht hOld
    · exact List.forall_mem_append.mpr ⟨hFlawless, h.flawless⟩

/-- The terms that a variable can have at first: none, or those of a text. -/
def Origin (admits : String → Prop) (old : List Term) : Prop :=
  old = [] ∨ ∃ text u, admits text ∧ parse text = .ok u ∧ u.terms = old

theorem Made.exists_declared {admits : String → Prop} {v : Variable} (hv : v.Made admits) :
    ∃ old added, v.terms = old ++ added ∧ Origin admits old ∧ Declared old added := by
  induction hv with
  | named name => exact ⟨[], [], rfl, .inl rfl, declared_nil []⟩
  | @read text v hText hRead =>
    exact ⟨v.terms, [], (List.append_nil _).symm, .inr ⟨text, v, hText, hRead, rfl⟩, declared_nil _⟩
  | declare _ hDeclare ih =>
    obtain ⟨old, added, hTerms, hOrigin, hDeclared⟩ := ih
    obtain ⟨hMore, hDeclared'⟩ := hDeclared.declare hTerms hDeclare
    exact ⟨old, _, hMore, hOrigin, hDeclared'⟩

theorem Origin.sound {admits : String → Prop} {old : List Term} (h : Origin admits old)
    (hTexts : ∀ text v, admits text → parse text = .ok v → v.Sound) (name : String) :
    Sound ⟨name, old⟩ := by
  obtain rfl | ⟨text, u, hText, hRead, rfl⟩ := h
  · exact ⟨List.nodup_nil, fun _ ht => absurd ht List.not_mem_nil⟩
  · have hSound := hTexts text u hText hRead
    exact ⟨hSound.distinct, hSound.flawless⟩

/-- Which texts may be read without harm: if some texts are read, then all variables of all controllers
are sound exactly if the texts describe sound variables. Each variable has the terms that were read,
if any, and after them terms that were declared, and it is sound if the read ones are. -/
theorem sound_of_builtFrom_iff (admits : String → Prop) :
    ((∀ c, Controller.BuiltFrom (Made admits) c → ∀ e ∈ c.vars.entries, e.2.Sound) ↔
      ∀ text v, admits text → parse text = .ok v → v.Sound) ∧
    ∀ c, Controller.BuiltFrom (Made admits) c → ∀ e ∈ c.vars.entries,
      ∃ old added, e.2.terms = old ++ added ∧ Origin admits old ∧ Declared old added ∧
        (e.2.Sound ↔ Sound ⟨e.2.name, old⟩) := by
  refine ⟨⟨?_, ?_⟩, ?_⟩
  · intro hAll text v hText hRead
    obtain ⟨c, hc, hMem⟩ := Controller.exists_builtFrom (Made.read hText hRead)
    exact hAll c hc _ hMem
  · intro hTexts c hc e he
    obtain ⟨old, added, hTerms, hOrigin, hDeclared⟩ := (hc.of_mem he).exists_declared
    exact (hDeclared.sound_iff hTerms).mpr (hOrigin.sound hTexts _)
  · intro c hc e he
    obtain ⟨old, added, hTerms, hOrigin, hDeclared⟩ := (hc.of_mem he).exists_declared
    exact ⟨old, added, hTerms, hOrigin, hDeclared, hDeclared.sound_iff hTerms⟩

def fanText : String :=
  "\x7b\"name\":\"Fan\",\"terms\":[" ++
    "\x7b\"name\":\"Fast\",\"function\":" ++
      "\x7b\"shape\":\"triangle\",\"a\":3.0,\"b\":2.0,\"c\":1.0\x7d\x7d," ++
    "\x7b\"name\":\"Fast\",\"function\":" ++
      "\x7b\"shape\":\"triangle\",\"a\":0.0,\"b\":1.0,\"c\":2.0\x7d\x7d]\x7d"

/-- The fan that is read has two terms of one name, the first with its corners in descending order, and
it can be registered. -/
theorem not_sound_fanText :
    ∃ v, parse fanText = .ok v ∧ v.terms.map Term.name = ["Fast", "Fast"] ∧
      v.terms.map (fun t => t.shape.flaw?) = [some .decreasing, none] ∧ ¬ v.Sound ∧
      ∃ c, Controller.BuiltFrom (Made (· = fanText)) c ∧ (v.name, v) ∈ c.vars.entries := by
  have hRead : (parse fanText).toOption.map (fun v =>
      (v.terms.map Term.name, v.terms.map fun t => t.shape.flaw?)) =
      some (["Fast", "Fast"], [some .decreasing, none]) := by decide +kernel
  obtain ⟨v, hSome, hTerms⟩ := Option.map_eq_some_iff.mp hRead
  obtain ⟨hNames, hFlaws⟩ := Prod.mk.inj hTerms
  have hOk := toOption_eq_some_iff.mp hSome
  refine ⟨v, hOk, hNames, hFlaws, ?_, Controller.exists_builtFrom (.read rfl hOk)⟩
  intro hSound
  have hDistinct := hSound.distinct
  rw [hNames] at hDistinct
  exact absurd hDistinct (by decide)

end Variable

end FuzzyControl
