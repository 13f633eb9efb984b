import Mathlib.Tactic.Tauto

/-!
# Labelled runs

A run of a system as the list of its steps, each with its label and the state it leads
to. If at every step of a run a property holds exactly where a condition does, as long as
it has held before, then it holds in the whole run exactly where the condition does. A
flag in the state that follows a rule tells what has happened since some earlier step.
-/
namespace PynqPrio.Programs

variable {σ : Type*} {ι : Type} {step : σ → ι → σ → Prop}

inductive Run (step : σ → ι → σ → Prop) : σ → List (ι × σ) → Prop where
  | nil (s : σ) : Run step s []
  | cons {s t : σ} {i : ι} {l : List (ι × σ)} (first : step s i t) (rest : Run step t l) :
      Run step s ((i, t) :: l)

/-- A relation holds at every step of a run. -/
def Everywhere (r : σ → ι → σ → Prop) : σ → List (ι × σ) → Prop
  | _, [] => True
  | s, (i, t) :: l => r s i t ∧ Everywhere r t l

/-- The step lemma for a property and its condition: both come to the same at every step
from a state with the invariant, and where the property holds the invariant is kept. -/
theorem Run.everywhere_iff {inv : σ → Prop} {prop cond : σ → ι → σ → Prop}
    (hstep : ∀ s i t, inv s → step s i t → (prop s i t ↔ cond s i t) ∧ (prop s i t → inv t))
    {s : σ} {l : List (ι × σ)} (h : Run step s l) (hs : inv s) :
    Everywhere prop s l ↔ Everywhere cond s l := by
  induction h with
  | nil s => exact Iff.rfl
  | cons first _ ih =>
    obtain ⟨hiff, hinv⟩ := hstep _ _ _ hs first
    simp only [Everywhere, ← hiff]
    exact and_congr_right fun hprop => ih (hinv hprop)

def finish : σ → List (ι × σ) → σ
  | s, [] => s
  | _, (_, t) :: l => finish t l

/-- What holds after every step holds at the end. -/
theorem Everywhere.finish {p : σ → Prop} {s : σ} {l : List (ι × σ)} (hs : p s)
    (h : Everywhere (fun _ _ t => p t) s l) : p (finish s l) := by
  induction l generalizing s with
  | nil => exact hs
  | cons x l ih => exact ih h.1 h.2

/-- It happened at some step of the run, and everything after that step was as required. -/
def Since (enter stay : σ → ι → σ → Prop) (s : σ) (l : List (ι × σ)) : Prop :=
  ∃ l₁ i t l₂, l = l₁ ++ (i, t) :: l₂ ∧ enter (finish s l₁) i t ∧
    Everywhere stay (finish s l₁) ((i, t) :: l₂)

theorem since_cons {enter stay : σ → ι → σ → Prop} {s t : σ} {i : ι} {l : List (ι × σ)} :
    Since enter stay s ((i, t) :: l) ↔
      (enter s i t ∧ Everywhere stay s ((i, t) :: l)) ∨ Since enter stay t l := by
  constructor
  · rintro ⟨l₁, j, u, l₂, heq, henter, hstay⟩
    cases l₁ with
    | nil =>
      obtain ⟨hhead, rfl⟩ := List.cons.inj heq
      obtain ⟨rfl, rfl⟩ := Prod.mk.inj hhead
      exact .inl ⟨henter, hstay⟩
    | cons first l₁ =>
      obtain ⟨rfl, rfl⟩ := List.cons.inj heq
      exact .inr ⟨l₁, j, u, l₂, rfl, henter, hstay⟩
  · rintro (⟨henter, hstay⟩ | ⟨l₁, j, u, l₂, rfl, henter, hstay⟩)
    · exact ⟨[], i, t, l, rfl, henter, hstay⟩
    · exact ⟨(i, t) :: l₁, j, u, l₂, rfl, henter, hstay⟩

/-- A flag that the steps update as `(flag ∨ enter) ∧ stay` is set at the end of a run if it
was set at the start and stayed, or has entered and stayed since. -/
theorem Run.since_iff {flag : σ → Prop} {enter stay : σ → ι → σ → Prop}
    (hstep : ∀ s i t, step s i t → (flag t ↔ (flag s ∨ enter s i t) ∧ stay s i t))
    {s : σ} {l : List (ι × σ)} (h : Run step s l) :
    flag (finish s l) ↔ (flag s ∧ Everywhere stay s l) ∨ Since enter stay s l := by
  induction h with
  | nil s => simp [finish, Everywhere, Since]
  | @cons s t i l first _ ih =>
    rw [finish, ih, since_cons, hstep _ _ _ first]
    simp only [Everywhere]
    tauto

/-- A field that each step sets as its label says, or keeps, has at the end of a run the
value that was set last. -/
theorem Run.last_set {β : Type} {field : σ → β} {set : ι → Option β}
    (hstep : ∀ s i t, step s i t → field t = (set i).getD (field s)) {s : σ} {l : List (ι × σ)}
    (h : Run step s l) :
    field (finish s l) = (l.filterMap fun x => set x.1).getLast?.getD (field s) := by
  induction h with
  | nil s => rfl
  | @cons s t i l first _ ih =>
    rw [finish, ih, hstep _ _ _ first, List.filterMap_cons]
    cases set i with
    | none => rfl
    | some b => rw [List.getLast?_cons]; rfl

/-- What the steps keep holds at the end of a run. -/
theorem Run.invariant {inv : σ → Prop} (hstep : ∀ s i t, inv s → step s i t → inv t) {s : σ}
    {l : List (ι × σ)} (h : Run step s l) (hs : inv s) : inv (finish s l) := by
  induction h with
  | nil s => exact hs
  | cons first _ ih => exact ih (hstep _ _ _ hs first)

/-- The states of a run have what the steps keep. -/
theorem Run.with_invariant {inv : σ → Prop} (hstep : ∀ s i t, inv s → step s i t → inv t) {s : σ}
    {l : List (ι × σ)} (h : Run step s l) (hs : inv s) :
    Run (fun s i t => inv s ∧ step s i t) s l := by
  induction h with
  | nil s => exact .nil s
  | cons first _ ih => exact .cons ⟨hs, first⟩ (ih (hstep _ _ _ hs first))

/-- The steps of a run that all meet a condition. -/
theorem Run.meeting {cond : σ → ι → σ → Prop} {s : σ} {l : List (ι × σ)} (h : Run step s l)
    (hcond : Everywhere cond s l) : Run (fun s i t => cond s i t ∧ step s i t) s l := by
  induction h with
  | nil s => exact .nil s
  | cons first _ ih => exact .cons ⟨hcond.1, first⟩ (ih hcond.2)

/-- The first steps of a run are a run. -/
theorem Run.of_append {s : σ} {l₁ l₂ : List (ι × σ)} (h : Run step s (l₁ ++ l₂)) :
    Run step s l₁ := by
  induction l₁ generalizing s with
  | nil => exact .nil s
  | cons x l₁ ih =>
    cases h with
    | cons first rest => exact .cons first (ih rest)

/-- What holds at every step of the system holds everywhere in a run. -/
theorem Run.everywhere {r : σ → ι → σ → Prop} (hstep : ∀ s i t, step s i t → r s i t) {s : σ}
    {l : List (ι × σ)} (h : Run step s l) : Everywhere r s l := by
  induction h with
  | nil s => trivial
  | cons first _ ih => exact ⟨hstep _ _ _ first, ih⟩

section Function

/-- The run in which a function takes the steps with these labels. -/
def stepsOf (after : σ → ι → σ) : σ → List ι → List (ι × σ)
  | _, [] => []
  | s, i :: l => (i, after s i) :: stepsOf after (after s i) l

/-- Whether all these steps can be taken. -/
def canAll (after : σ → ι → σ) (can : σ → ι → Bool) : σ → List ι → Bool
  | _, [] => true
  | s, i :: l => can s i && canAll after can (after s i) l

theorem run_stepsOf {after : σ → ι → σ} {can : σ → ι → Bool}
    (hstep : ∀ s i, can s i = true → step s i (after s i)) {s : σ} {l : List ι}
    (h : canAll after can s l = true) : Run step s (stepsOf after s l) := by
  induction l generalizing s with
  | nil => exact .nil s
  | cons i l ih =>
    obtain ⟨hcan, hall⟩ := (Bool.and_eq_true _ _).mp h
    exact .cons (hstep s i hcan) (ih hall)

/-- A relation that is checked at each of these steps. -/
theorem everywhere_stepsOf {r : σ → ι → σ → Prop} {after : σ → ι → σ} {ok : σ → ι → Bool}
    (hok : ∀ s i, ok s i = true → r s i (after s i)) {s : σ} {l : List ι}
    (h : canAll after ok s l = true) : Everywhere r s (stepsOf after s l) := by
  induction l generalizing s with
  | nil => trivial
  | cons i l ih =>
    obtain ⟨hfirst, hrest⟩ := (Bool.and_eq_true _ _).mp h
    exact ⟨hok s i hfirst, ih hrest⟩

end Function

end PynqPrio.Programs
