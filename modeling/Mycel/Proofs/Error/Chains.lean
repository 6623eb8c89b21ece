import Mathlib.Logic.Relation
import Mycel.Error.Basic

/-!
# Codes along a chain of errors

The class of a chain is that of its outermost diagnostic: `Error.hasCode` and `Error.codeName` pass
over what a host has put in front of it, and look no further. The classes that a chain carries are
those of all its diagnostics. So a chain is known by every class that it carries just if it carries
no more than one (`Error.codes_of_chain`).
-/

namespace Mycel.Error

/-- The diagnostic that an error itself is. -/
def own? : Error → Option Diagnostic
  | report d | caused d _ => some d
  | plain _ | wrapped _ _ => none

/-- The error itself, or an error that is reached from it by unwrapping, is a diagnostic of class
`c`. -/
def Carries (e : Error) (c : Code) : Prop :=
  ∃ e' d, Relation.ReflTransGen (fun a b => a.cause? = some b) e e' ∧ e'.own? = some d ∧ d.code = c

/-- A diagnostic that is reached by unwrapping errors that are none. -/
def Outermost (e : Error) (d : Diagnostic) : Prop :=
  ∃ e', Relation.ReflTransGen (fun a b => a.own? = none ∧ a.cause? = some b) e e' ∧
    e'.own? = some d

/-- The diagnostic of an error that is one is outermost. Any other error has the outermost
diagnostic of what it wraps. -/
theorem outermost_cases (e : Error) (d : Diagnostic) :
    e.Outermost d ↔
      e.own? = some d ∨ e.own? = none ∧ ∃ e', e.cause? = some e' ∧ e'.Outermost d := by
  constructor
  · rintro ⟨e', hreach, hd⟩
    rcases hreach.cases_head with rfl | ⟨a, ⟨hnone, hcause⟩, hrest⟩
    · exact .inl hd
    · exact .inr ⟨hnone, a, hcause, e', hrest, hd⟩
  · rintro (hd | ⟨hnone, a, hcause, e', hrest, hd⟩)
    · exact ⟨e, .refl, hd⟩
    · exact ⟨e', .head ⟨hnone, hcause⟩ hrest, hd⟩

theorem diagnostic?_eq_some_iff (e : Error) (d : Diagnostic) :
    e.diagnostic? = some d ↔ e.Outermost d := by
  induction e with
  | plain message =>
    rw [outermost_cases]
    simp [diagnostic?, first?, own?, cause?]
  | wrapped message cause ih =>
    have hcause : (wrapped message cause).diagnostic? = cause.diagnostic? := rfl
    rw [outermost_cases, hcause, ih]
    simp [own?, cause?]
  | report d' =>
    rw [outermost_cases]
    simp [diagnostic?, first?, own?]
  | caused d' cause =>
    rw [outermost_cases]
    simp [diagnostic?, first?, own?]

theorem hasCode_iff (e : Error) (c : Code) :
    e.hasCode c = true ↔ ∃ d, e.Outermost d ∧ d.code = c := by
  simp [hasCode, code?, diagnostic?_eq_some_iff]

theorem Outermost.carries {e : Error} {d : Diagnostic} (h : e.Outermost d) : e.Carries d.code := by
  obtain ⟨e', hreach, hd⟩ := h
  exact ⟨e', d, hreach.lift id fun _ _ hstep => hstep.2, hd, rfl⟩

/-- Where there is a diagnostic, there is an outermost one. -/
theorem Carries.exists_outermost {e : Error} {c : Code} (h : e.Carries c) : ∃ d, e.Outermost d := by
  obtain ⟨e', d, hreach, hd, -⟩ := h
  induction hreach using Relation.ReflTransGen.head_induction_on with
  | refl => exact ⟨d, e', .refl, hd⟩
  | @head a b hcause _ ih =>
    obtain ⟨d', hd'⟩ := ih
    cases hown : a.own? with
    | some d'' => exact ⟨d'', (outermost_cases a d'').2 (.inl hown)⟩
    | none => exact ⟨d', (outermost_cases a d').2 (.inr ⟨hown, b, hcause, hd'⟩)⟩

/-- A chain is known by all the classes that it carries just if they are the same one. -/
theorem forall_hasCode_iff_carries (e : Error) :
    (∀ c, e.hasCode c = true ↔ e.Carries c) ↔ ∀ c c', e.Carries c → e.Carries c' → c = c' := by
  simp only [hasCode_iff]
  constructor
  · intro h c c' hc hc'
    obtain ⟨d, hd, rfl⟩ := (h c).2 hc
    obtain ⟨d', hd', rfl⟩ := (h c').2 hc'
    rw [← diagnostic?_eq_some_iff] at hd hd'
    cases hd.symm.trans hd'
    rfl
  · intro h c
    constructor
    · rintro ⟨d, hd, rfl⟩
      exact hd.carries
    · intro hc
      obtain ⟨d, hd⟩ := hc.exists_outermost
      exact ⟨d, hd, h _ _ hd.carries hc⟩

theorem codeName_eq_iff (e : Error) (n : Text) :
    e.codeName = n ↔
      (∃ d, e.Outermost d ∧ d.code.name = n) ∨ n = [] ∧ ∀ c, ¬ e.Carries c := by
  cases hd : e.diagnostic? with
  | some d =>
    have hname : e.codeName = d.code.name := by simp only [codeName, code?, hd, Option.map_some]
    have houter : ∀ d', e.Outermost d' ↔ d = d' := fun d' => by
      rw [← diagnostic?_eq_some_iff, hd, Option.some.injEq]
    have hcarries : ¬ ∀ c, ¬ e.Carries c := fun h => h _ ((houter d).2 rfl).carries
    simp [hname, houter, hcarries]
  | none =>
    have hname : e.codeName = [] := by simp only [codeName, code?, hd, Option.map_none]
    have houter : ∀ d', ¬ e.Outermost d' := fun d' => by
      rw [← diagnostic?_eq_some_iff, hd]
      exact nofun
    have hcarries : ∀ c, ¬ e.Carries c := fun c hc => by
      obtain ⟨d, hd⟩ := hc.exists_outermost
      exact houter d hd
    simp [hname, houter, hcarries, eq_comm]

/-- What is asked about the class of a chain is answered by its outermost diagnostic. That is the
answer for all that the chain carries just if it carries no two classes. -/
theorem codes_of_chain (e : Error) :
    (∀ c, e.hasCode c = true ↔ ∃ d, e.Outermost d ∧ d.code = c) ∧
    ((∀ c, e.hasCode c = true ↔ e.Carries c) ↔ ∀ c c', e.Carries c → e.Carries c' → c = c') ∧
    ∀ n, e.codeName = n ↔
      (∃ d, e.Outermost d ∧ d.code.name = n) ∨ n = [] ∧ ∀ c, ¬ e.Carries c :=
  ⟨e.hasCode_iff, e.forall_hasCode_iff_carries, e.codeName_eq_iff⟩

/-- A refusal to parse whose cause is a fault of scanning. -/
def parseOverLex : Error :=
  .caused { code := .parse, message := bytes "outer" }
    (.report { code := .lex, message := bytes "inner" })

/-- The cause is in the chain, but the chain is not known by its class. -/
theorem not_hasCode_parseOverLex :
    parseOverLex.Carries .lex ∧ parseOverLex.hasCode .lex = false :=
  ⟨⟨_, _, .single rfl, rfl, rfl⟩, by decide⟩

end Mycel.Error
