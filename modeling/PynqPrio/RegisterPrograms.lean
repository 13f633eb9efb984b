import Mathlib.Logic.Relation
import Mathlib.Order.Basic

/-!
# Programs over nondeterministic operations

A program issues operations, receives one answer for each, and may iterate. A
machine says which answers an operation can have and which state it leads to, so
one program runs on an adversarial machine, on a concrete device, or on a device
that is active between two operations. `Meets` is the partial-correctness judgement:
every atomic step satisfies a guarantee, and every final state the postcondition.
-/
namespace PynqPrio.Programs

/-- Programs whose operation `o` is answered by a value of `Res o`. In `loop body b k`
the body is iterated from `b`; `inl` continues the iteration and `inr` leaves it. -/
inductive Prog (Op : Type) (Res : Op → Type) : Type → Type 1 where
  | ret {α : Type} (a : α) : Prog Op Res α
  | call {α : Type} (o : Op) (k : Res o → Prog Op Res α) : Prog Op Res α
  | loop {α β γ : Type} (body : β → Prog Op Res (β ⊕ γ)) (b : β) (k : γ → Prog Op Res α) :
      Prog Op Res α

/-- The answers a machine can give to an operation, with the state it moves to. -/
abbrev Machine (Op : Type) (Res : Op → Type) (σ : Type) :=
  σ → (o : Op) → Res o → σ → Prop

variable {Op : Type} {Res : Op → Type} {σ τ α β γ : Type}

namespace Prog

def bind {α γ : Type} : Prog Op Res α → (α → Prog Op Res γ) → Prog Op Res γ
  | .ret a, f => f a
  | .call o k, f => .call o fun x => (k x).bind f
  | .loop body b k, f => .loop body b fun c => (k c).bind f

instance : Monad (Prog Op Res) where
  pure := .ret
  bind := .bind

/-- A single operation. -/
def perform (o : Op) : Prog Op Res (Res o) := .call o .ret

/-- Iterate a body until it answers `inr`. -/
def iterate (body : β → Prog Op Res (β ⊕ γ)) (b : β) : Prog Op Res γ := .loop body b .ret

/-- `Exec M p s a t`: the program can finish from `s` with answer `a` in state `t`. -/
def Exec (M : Machine Op Res σ) : {α : Type} → Prog Op Res α → σ → α → σ → Prop
  | _, .ret a, s, r, t => r = a ∧ t = s
  | _, .call o k, s, r, t => ∃ x u, M s o x u ∧ Exec M (k x) u r t
  | _, .loop (β := β) body b k, s, r, t =>
      ∃ (b' : β) (s' : σ), Relation.ReflTransGen
        (fun p q : β × σ => Exec M (body p.1) p.2 (.inl q.1) q.2) (b, s) (b', s') ∧
        ∃ c u, Exec M (body b') s' (.inr c) u ∧ Exec M (k c) u r t

/-- `Steps M p s u v`: running the program from `s` can take the atomic step from `u` to `v`. -/
def Steps (M : Machine Op Res σ) : {α : Type} → Prog Op Res α → σ → σ → σ → Prop
  | _, .ret _, _, _, _ => False
  | _, .call o k, s, u, v => ∃ x t, M s o x t ∧ ((u = s ∧ v = t) ∨ Steps M (k x) t u v)
  | _, .loop (β := β) body b k, s, u, v =>
      ∃ (b' : β) (s' : σ), Relation.ReflTransGen
        (fun p q : β × σ => Exec M (body p.1) p.2 (.inl q.1) q.2) (b, s) (b', s') ∧
        (Steps M (body b') s' u v ∨
          ∃ c t, Exec M (body b') s' (.inr c) t ∧ Steps M (k c) t u v)

/-- Every atomic step that changes the state satisfies `G`, every final state satisfies `Q`. -/
def Meets (M : Machine Op Res σ) (G : σ → σ → Prop) (p : Prog Op Res α)
    (Q : α → σ → Prop) (s : σ) : Prop :=
  (∀ u v, Steps M p s u v → u ≠ v → G u v) ∧ ∀ a t, Exec M p s a t → Q a t

variable {M : Machine Op Res σ} {G : σ → σ → Prop} {Q : α → σ → Prop} {s : σ}

theorem exec_bind (p : Prog Op Res α) (f : α → Prog Op Res γ) (s t : σ) (r : γ) :
    Exec M (p.bind f) s r t ↔ ∃ a u, Exec M p s a u ∧ Exec M (f a) u r t := by
  induction p generalizing s with
  | ret a => simp [bind, Exec, and_assoc]
  | call o k ih =>
    simp only [bind, Exec, ih]
    constructor
    · rintro ⟨x, u, hx, a, v, ha, hf⟩
      exact ⟨a, v, ⟨x, u, hx, ha⟩, hf⟩
    · rintro ⟨a, v, ⟨x, u, hx, ha⟩, hf⟩
      exact ⟨x, u, hx, a, v, ha, hf⟩
  | loop body b k _ ih =>
    simp only [bind, Exec, ih]
    constructor
    · rintro ⟨b', s', hr, c, u, hc, a, v, ha, hf⟩
      exact ⟨a, v, ⟨b', s', hr, c, u, hc, ha⟩, hf⟩
    · rintro ⟨a, v, ⟨b', s', hr, c, u, hc, ha⟩, hf⟩
      exact ⟨b', s', hr, c, u, hc, a, v, ha, hf⟩

theorem steps_bind (p : Prog Op Res α) (f : α → Prog Op Res γ) (s u v : σ) :
    Steps M (p.bind f) s u v ↔
      Steps M p s u v ∨ ∃ a t, Exec M p s a t ∧ Steps M (f a) t u v := by
  induction p generalizing s with
  | ret a => simp [bind, Steps, Exec, and_assoc]
  | call o k ih =>
    simp only [bind, Steps, Exec, ih]
    constructor
    · rintro ⟨x, t, hx, h | h | ⟨a, t', ha, hf⟩⟩
      · exact .inl ⟨x, t, hx, .inl h⟩
      · exact .inl ⟨x, t, hx, .inr h⟩
      · exact .inr ⟨a, t', ⟨x, t, hx, ha⟩, hf⟩
    · rintro (⟨x, t, hx, h | h⟩ | ⟨a, t', ⟨x, t, hx, ha⟩, hf⟩)
      · exact ⟨x, t, hx, .inl h⟩
      · exact ⟨x, t, hx, .inr (.inl h)⟩
      · exact ⟨x, t, hx, .inr (.inr ⟨a, t', ha, hf⟩)⟩
  | loop body b k _ ih =>
    simp only [bind, Steps, Exec, ih]
    constructor
    · rintro ⟨b', s', hr, h | ⟨c, t, hc, h | ⟨a, t', ha, hf⟩⟩⟩
      · exact .inl ⟨b', s', hr, .inl h⟩
      · exact .inl ⟨b', s', hr, .inr ⟨c, t, hc, h⟩⟩
      · exact .inr ⟨a, t', ⟨b', s', hr, c, t, hc, ha⟩, hf⟩
    · rintro (⟨b', s', hr, h | ⟨c, t, hc, h⟩⟩ | ⟨a, t', ⟨b', s', hr, c, t, hc, ha⟩, hf⟩)
      · exact ⟨b', s', hr, .inl h⟩
      · exact ⟨b', s', hr, .inr ⟨c, t, hc, .inl h⟩⟩
      · exact ⟨b', s', hr, .inr ⟨c, t, hc, .inr ⟨a, t', ha, hf⟩⟩⟩

@[simp] theorem meets_pure (a : α) :
    Meets M G (pure a : Prog Op Res α) Q s ↔ Q a s := by
  simp [Meets, Pure.pure, Steps, Exec]

theorem meets_call (o : Op) (k : Res o → Prog Op Res α) :
    Meets M G (.call o k) Q s ↔
      ∀ x t, M s o x t → (s ≠ t → G s t) ∧ Meets M G (k x) Q t := by
  constructor
  · rintro ⟨hs, he⟩ x t hx
    exact ⟨hs s t ⟨x, t, hx, .inl ⟨rfl, rfl⟩⟩,
      fun u v h => hs u v ⟨x, t, hx, .inr h⟩, fun a t' h => he a t' ⟨x, t, hx, h⟩⟩
  · intro h
    constructor
    · rintro u v ⟨x, t, hx, ⟨rfl, rfl⟩ | hk⟩ hne
      · exact (h x v hx).1 hne
      · exact (h x t hx).2.1 u v hk hne
    · rintro a t' ⟨x, t, hx, hk⟩
      exact (h x t hx).2.2 a t' hk

@[simp] theorem meets_bind (p : Prog Op Res α) (f : α → Prog Op Res γ) {Q : γ → σ → Prop} :
    Meets M G (p >>= f) Q s ↔ Meets M G p (fun a t => Meets M G (f a) Q t) s := by
  change Meets M G (p.bind f) Q s ↔ _
  simp only [Meets, steps_bind, exec_bind]
  constructor
  · rintro ⟨hs, he⟩
    exact ⟨fun u v h => hs u v (.inl h), fun a t ha =>
      ⟨fun u v h => hs u v (.inr ⟨a, t, ha, h⟩), fun r t' h => he r t' ⟨a, t, ha, h⟩⟩⟩
  · rintro ⟨hs, he⟩
    constructor
    · rintro u v (h | ⟨a, t, ha, h⟩) hne
      · exact hs u v h hne
      · exact (he a t ha).1 u v h hne
    · rintro r t' ⟨a, t, ha, h⟩
      exact (he a t ha).2 r t' h

@[simp] theorem meets_ite (c : Prop) [Decidable c] (p q : Prog Op Res α) :
    Meets M G (if c then p else q) Q s ↔
      (c → Meets M G p Q s) ∧ (¬c → Meets M G q Q s) := by
  by_cases h : c <;> simp [h]

theorem Meets.mono {p : Prog Op Res α} {G' : σ → σ → Prop} {Q' : α → σ → Prop}
    (h : Meets M G p Q s) (hG : ∀ u v, G u v → G' u v) (hQ : ∀ a t, Q a t → Q' a t) :
    Meets M G' p Q' s :=
  ⟨fun u v hs hne => hG u v (h.1 u v hs hne), fun a t he => hQ a t (h.2 a t he)⟩

theorem Meets.imp {p : Prog Op Res α} {Q' : α → σ → Prop}
    (h : Meets M G p Q s) (hQ : ∀ a t, Q a t → Q' a t) : Meets M G p Q' s :=
  h.mono (fun _ _ => id) hQ

theorem Meets.and {p : Prog Op Res α} {Q' : α → σ → Prop}
    (h : Meets M G p Q s) (h' : Meets M G p Q' s) :
    Meets M G p (fun a t => Q a t ∧ Q' a t) s :=
  ⟨h.1, fun a t he => ⟨h.2 a t he, h'.2 a t he⟩⟩

/-- What the body preserves holds whenever it is entered. -/
theorem iterations_invariant {body : β → Prog Op Res (β ⊕ γ)} {b : β} (J : β → σ → Prop)
    (h0 : J b s) (hbody : ∀ b s b' t, J b s → Exec M (body b) s (.inl b') t → J b' t) {q : β × σ}
    (hq : Relation.ReflTransGen
      (fun p q : β × σ => Exec M (body p.1) p.2 (.inl q.1) q.2) (b, s) q) : J q.1 q.2 := by
  induction hq with
  | refl => exact h0
  | tail _ hstep ih => exact hbody _ _ _ _ ih hstep

/-- The invariant rule: `J` holds whenever the body is entered. -/
theorem meets_loop {body : β → Prog Op Res (β ⊕ γ)} {b : β} {k : γ → Prog Op Res α}
    (J : β → σ → Prop) (h0 : J b s)
    (hbody : ∀ b s, J b s → Meets M G (body b)
      (fun r t => match r with
        | .inl b' => J b' t
        | .inr c => Meets M G (k c) Q t) s) :
    Meets M G (.loop body b k) Q s := by
  have hkeep : ∀ b s b' t, J b s → Exec M (body b) s (.inl b') t → J b' t :=
    fun b s _ _ hJ h => (hbody b s hJ).2 _ _ h
  constructor
  · rintro u v ⟨b', s', hr, h | ⟨c, t, hc, h⟩⟩ hne
    · exact (hbody b' s' (iterations_invariant J h0 hkeep hr)).1 u v h hne
    · exact ((hbody b' s' (iterations_invariant J h0 hkeep hr)).2 _ _ hc).1 u v h hne
  · rintro a t ⟨b', s', hr, c, u, hc, h⟩
    exact ((hbody b' s' (iterations_invariant J h0 hkeep hr)).2 _ _ hc).2 a t h

theorem meets_iterate {body : β → Prog Op Res (β ⊕ γ)} {b : β} {Q : γ → σ → Prop}
    (J : β → σ → Prop) (h0 : J b s)
    (hbody : ∀ b s, J b s → Meets M G (body b)
      (fun r t => match r with
        | .inl b' => J b' t
        | .inr c => Q c t) s) :
    Meets M G (iterate body b) Q s := by
  refine meets_loop J h0 fun b s hJ => (hbody b s hJ).imp ?_
  rintro (b' | c) t ht
  · exact ht
  · exact (meets_pure c).mpr ht

theorem steps_of_iterations {body : β → Prog Op Res (β ⊕ γ)} {b : β} {k : γ → Prog Op Res α}
    (ih : ∀ b s t r, Exec M (body b) s r t → Relation.ReflTransGen (Steps M (body b) s) s t)
    {q : β × σ} (hr : Relation.ReflTransGen
      (fun p q : β × σ => Exec M (body p.1) p.2 (.inl q.1) q.2) (b, s) q) :
    Relation.ReflTransGen (Steps M (.loop body b k) s) s q.2 := by
  induction hr with
  | refl => exact .refl
  | @tail p q hp hpq hchain =>
    refine hchain.trans (Relation.ReflTransGen.mono (fun u v h => ?_) _ _ (ih p.1 p.2 q.2 _ hpq))
    exact ⟨p.1, p.2, hp, .inl h⟩

/-- An execution is a chain of atomic steps. -/
theorem exec_steps {α : Type} (p : Prog Op Res α) {s t : σ} {a : α} (h : Exec M p s a t) :
    Relation.ReflTransGen (Steps M p s) s t := by
  induction p generalizing s t with
  | ret r =>
    rw [h.2]
  | call o k ih =>
    obtain ⟨x, u, hx, hk⟩ := h
    have hchain := Relation.ReflTransGen.mono
      (fun v w hvw => show Steps M (.call o k) s v w from ⟨x, u, hx, .inr hvw⟩) _ _ (ih x hk)
    exact .head ⟨x, u, hx, .inl ⟨rfl, rfl⟩⟩ hchain
  | @loop α β γ body b k ihb ih =>
    obtain ⟨b', s', hr, c, u, hc, hk⟩ := h
    have hbefore := steps_of_iterations (k := k) (fun b s t r h => ihb b h) hr
    have hlast := Relation.ReflTransGen.mono
      (fun v w h => show Steps M (.loop body b k) s v w from ⟨b', s', hr, .inl h⟩) _ _ (ihb b' hc)
    have hafter := Relation.ReflTransGen.mono
      (fun v w h => show Steps M (.loop body b k) s v w from ⟨b', s', hr, .inr ⟨c, u, hc, h⟩⟩)
      _ _ (ih c hk)
    exact (hbefore.trans hlast).trans hafter

/-- Every atomic step starts in a state reached by earlier ones. -/
theorem steps_chain {α : Type} (p : Prog Op Res α) {s u v : σ} (h : Steps M p s u v) :
    Relation.ReflTransGen (Steps M p s) s u := by
  induction p generalizing s with
  | ret r => exact h.elim
  | call o k ih =>
    obtain ⟨x, t, hx, ⟨rfl, rfl⟩ | hk⟩ := h
    · exact .refl
    · have hchain := Relation.ReflTransGen.mono
        (fun w w' hw => show Steps M (.call o k) s w w' from ⟨x, t, hx, .inr hw⟩) _ _ (ih x hk)
      exact .head ⟨x, t, hx, .inl ⟨rfl, rfl⟩⟩ hchain
  | @loop α β γ body b k ihb ih =>
    obtain ⟨b', s', hr, hk⟩ := h
    have hbefore := steps_of_iterations (k := k) (fun b s t r h => exec_steps (body b) h) hr
    have hbody := fun w w' (hw : Steps M (body b') s' w w') =>
      show Steps M (.loop body b k) s w w' from ⟨b', s', hr, .inl hw⟩
    rcases hk with hk | ⟨c, t, hc, hk⟩
    · exact hbefore.trans (Relation.ReflTransGen.mono hbody _ _ (ihb b' hk))
    · have hlast := Relation.ReflTransGen.mono hbody _ _ (exec_steps (body b') hc)
      have hafter := Relation.ReflTransGen.mono
        (fun w w' hw => show Steps M (.loop body b k) s w w' from ⟨b', s', hr, .inr ⟨c, t, hc, hw⟩⟩)
        _ _ (ih c hk)
      exact (hbefore.trans hlast).trans hafter

/-- An atomic step is an operation of the machine. -/
theorem steps_operation {α : Type} (p : Prog Op Res α) {s u v : σ} (h : Steps M p s u v) :
    ∃ o x, M u o x v := by
  induction p generalizing s with
  | ret r => exact h.elim
  | call o k ih =>
    obtain ⟨x, t, hx, ⟨rfl, rfl⟩ | hk⟩ := h
    · exact ⟨o, x, hx⟩
    · exact ih x hk
  | loop body b k ihb ih =>
    obtain ⟨b', s', _, hk | ⟨c, t, _, hk⟩⟩ := h
    · exact ihb b' hk
    · exact ih c hk

/-- What every step preserves holds at every point of a run. -/
theorem steps_invariant {α : Type} {p : Prog Op Res α} {P : σ → Prop} (h0 : P s)
    (hstep : ∀ u v, Steps M p s u v → P u → P v) {u v : σ} (h : Steps M p s u v) : P u ∧ P v := by
  have hchain := steps_chain p h
  have hu : P u := by
    clear h
    induction hchain with
    | refl => exact h0
    | tail _ hlast ih => exact hstep _ _ hlast ih
  exact ⟨hu, hstep u v h hu⟩

/-- What every step preserves holds at the end of a run. -/
theorem exec_invariant {α : Type} {p : Prog Op Res α} {P : σ → Prop} (h0 : P s)
    (hstep : ∀ u v, Steps M p s u v → P u → P v) {a : α} {t : σ} (h : Exec M p s a t) : P t := by
  have hchain := exec_steps p h
  clear h
  induction hchain with
  | refl => exact h0
  | tail _ hlast ih => exact hstep _ _ hlast ih

/-- What every step preserves is guaranteed by the program. -/
theorem meets_of_steps {α : Type} {p : Prog Op Res α} {P : σ → Prop} (h0 : P s)
    (hstep : ∀ u v, Steps M p s u v → P u → P v) :
    Meets M (fun _ v => P v) p (fun _ t => P t) s :=
  ⟨fun _ _ h _ => (steps_invariant h0 hstep h).2, fun _ _ h => exec_invariant h0 hstep h⟩

/-- A predicate guaranteed after every step that changes the state holds at every point. -/
theorem meets_steps {P : σ → Prop} {p : Prog Op Res α} (h0 : P s)
    (hp : Meets M (fun _ v => P v) p Q s) {u v : σ} (h : Steps M p s u v) : P u ∧ P v := by
  refine steps_invariant h0 (fun u v huv hu => ?_) h
  by_cases hne : u = v
  · exact hne ▸ hu
  · exact hp.1 u v huv hne

/-- Every run of the program from `s` is finite: no loop can be iterated for ever. -/
def Total (M : Machine Op Res σ) : {α : Type} → Prog Op Res α → σ → Prop
  | _, .ret _, _ => True
  | _, .call o k, s => ∀ x t, M s o x t → Total M (k x) t
  | _, .loop (β := β) (γ := γ) body b k, s =>
      Acc (fun q p : β × σ => Exec M (body p.1) p.2 (.inl q.1) q.2) (b, s) ∧
      ∀ (b' : β) (s' : σ), Relation.ReflTransGen
        (fun p q : β × σ => Exec M (body p.1) p.2 (.inl q.1) q.2) (b, s) (b', s') →
        Total M (body b') s' ∧ ∀ (c : γ) t, Exec M (body b') s' (.inr c) t → Total M (k c) t

@[simp] theorem total_pure (a : α) : Total M (pure a : Prog Op Res α) s := trivial

@[simp] theorem total_bind (p : Prog Op Res α) (f : α → Prog Op Res γ) :
    Total M (p >>= f) s ↔ Total M p s ∧ ∀ a t, Exec M p s a t → Total M (f a) t := by
  change Total M (p.bind f) s ↔ _
  induction p generalizing s with
  | ret a => simp [bind, Total, Exec]
  | call o k ih =>
    simp only [bind, Total, Exec, ih]
    constructor
    · intro h
      refine ⟨fun x t hx => (h x t hx).1, ?_⟩
      rintro a u ⟨x, t, hx, ha⟩
      exact (h x t hx).2 a u ha
    · rintro ⟨h, hf⟩ x t hx
      exact ⟨h x t hx, fun a u ha => hf a u ⟨x, t, hx, ha⟩⟩
  | loop body b k _ ih =>
    simp only [bind, Total, Exec, ih]
    constructor
    · rintro ⟨hacc, h⟩
      refine ⟨⟨hacc, fun b' s' hr => ⟨(h b' s' hr).1, fun c t hc => ((h b' s' hr).2 c t hc).1⟩⟩, ?_⟩
      rintro a u ⟨b', s', hr, c, t, hc, ha⟩
      exact ((h b' s' hr).2 c t hc).2 a u ha
    · rintro ⟨⟨hacc, h⟩, hf⟩
      refine ⟨hacc, fun b' s' hr => ⟨(h b' s' hr).1, fun c t hc => ?_⟩⟩
      exact ⟨(h b' s' hr).2 c t hc, fun a u ha => hf a u ⟨b', s', hr, c, t, hc, ha⟩⟩

@[simp] theorem total_ite (c : Prop) [Decidable c] (p q : Prog Op Res α) :
    Total M (if c then p else q) s ↔ (c → Total M p s) ∧ (¬c → Total M q s) := by
  by_cases h : c <;> simp [h]

/-- The variant rule: `J` holds whenever the body is entered, the body always finishes,
and every further iteration makes the measure `m` smaller. -/
theorem total_iterate {body : β → Prog Op Res (β ⊕ γ)} {b : β}
    (J : β → σ → Prop) (m : β → σ → ℕ) (h0 : J b s)
    (htotal : ∀ b s, J b s → Total M (body b) s)
    (hbody : ∀ b s b' t, J b s → Exec M (body b) s (.inl b') t → J b' t ∧ m b' t < m b s) :
    Total M (iterate body b) s := by
  have acc : ∀ n (p : β × σ), m p.1 p.2 ≤ n → J p.1 p.2 →
      Acc (fun q p : β × σ => Exec M (body p.1) p.2 (.inl q.1) q.2) p := by
    intro n
    induction n with
    | zero =>
      intro p hm hJ
      refine ⟨p, fun q hq => ?_⟩
      have := (hbody p.1 p.2 q.1 q.2 hJ hq).2
      omega
    | succ n ih =>
      intro p hm hJ
      refine ⟨p, fun q hq => ?_⟩
      obtain ⟨hJ', hlt⟩ := hbody p.1 p.2 q.1 q.2 hJ hq
      exact ih q (by omega) hJ'
  have hkeep : ∀ b s b' t, J b s → Exec M (body b) s (.inl b') t → J b' t :=
    fun b s b' t hJ h => (hbody b s b' t hJ h).1
  exact ⟨acc (m b s) (b, s) (Nat.le_refl _) h0, fun b' s' hr =>
    ⟨htotal b' s' (iterations_invariant J h0 hkeep hr), fun _ _ _ => trivial⟩⟩

/-- On a machine that answers every operation a program whose runs are finite has a run. -/
theorem exists_exec {α : Type} {p : Prog Op Res α} {s : σ} (hM : ∀ s o, ∃ x t, M s o x t)
    (h : Total M p s) : ∃ a t, Exec M p s a t := by
  induction p generalizing s with
  | ret a => exact ⟨a, s, rfl, rfl⟩
  | call o k ih =>
    obtain ⟨x, u, hx⟩ := hM s o
    obtain ⟨a, t, ht⟩ := ih x (h x u hx)
    exact ⟨a, t, x, u, hx, ht⟩
  | @loop α β γ body b k ihb ih =>
    obtain ⟨hacc, hrounds⟩ := h
    generalize hq : (b, s) = q at hacc hrounds
    induction hacc generalizing b s with
    | intro q _ ihq =>
      subst hq
      obtain ⟨hbody, hrest⟩ := hrounds b s .refl
      obtain ⟨r, u, hr⟩ := ihb b hbody
      cases r with
      | inl b' =>
        obtain ⟨a, t, b'', s'', hreach, hleave⟩ := ihq (b', u) hr b' rfl
          fun b'' s'' hreach => hrounds b'' s'' (.head hr hreach)
        exact ⟨a, t, b'', s'', .head hr hreach, hleave⟩
      | inr c =>
        obtain ⟨a, t, ht⟩ := ih c (hrest c u hr)
        exact ⟨a, t, b, s, .refl, c, u, hr, ht⟩

section Runner

/-- The machine of a function that answers an operation where it can. -/
def answering (next : σ → (o : Op) → Option (Res o × σ)) : Machine Op Res σ :=
  fun s o x t => next s o = some (x, t)

/-- Add what was watched before. -/
def watched (w : Bool) (r : Bool × α) : Bool × α := (w || r.1, r.2)

/-- Iterate a watched function at most `fuel` times. -/
def watchIterate (f : β → σ → Bool × Option ((β ⊕ γ) × σ)) :
    ℕ → β → σ → Bool × Option (γ × σ)
  | 0, _, _ => (false, none)
  | n + 1, b, s => match f b s with
    | (w, none) => (w, none)
    | (w, some (.inl b', t)) => watched w (watchIterate f n b' t)
    | (w, some (.inr c, t)) => (w, some (c, t))

/-- Run a program, and watch whether one of its atomic steps is `bad`. -/
def watch (next : σ → (o : Op) → Option (Res o × σ)) (bad : σ → σ → Bool) (fuel : ℕ) :
    {α : Type} → Prog Op Res α → σ → Bool × Option (α × σ)
  | _, .ret a, s => (false, some (a, s))
  | _, .call o k, s => match next s o with
    | none => (false, none)
    | some (x, t) => watched (bad s t) (watch next bad fuel (k x) t)
  | _, .loop body b k, s =>
    match watchIterate (fun b s => watch next bad fuel (body b) s) fuel b s with
    | (w, none) => (w, none)
    | (w, some (c, t)) => watched w (watch next bad fuel (k c) t)

def run (next : σ → (o : Op) → Option (Res o × σ)) (fuel : ℕ) (p : Prog Op Res α) (s : σ) :
    Option (α × σ) :=
  (watch next (fun _ _ => false) fuel p s).2

private theorem watchIterate_sound {f : β → σ → Bool × Option ((β ⊕ γ) × σ)}
    {E : β → σ → β ⊕ γ → σ → Prop} {W : β → σ → Prop}
    (hf : ∀ b s, (∀ r t, (f b s).2 = some (r, t) → E b s r t) ∧ ((f b s).1 = true → W b s))
    (n : ℕ) (b : β) (s : σ) :
    (∀ c t, (watchIterate f n b s).2 = some (c, t) → ∃ b' s', Relation.ReflTransGen
      (fun p q : β × σ => E p.1 p.2 (.inl q.1) q.2) (b, s) (b', s') ∧ E b' s' (.inr c) t) ∧
    ((watchIterate f n b s).1 = true → ∃ b' s', Relation.ReflTransGen
      (fun p q : β × σ => E p.1 p.2 (.inl q.1) q.2) (b, s) (b', s') ∧ W b' s') := by
  induction n generalizing b s with
  | zero => simp [watchIterate]
  | succ n ih =>
    obtain ⟨hexec, hwatch⟩ := hf b s
    rw [watchIterate]
    split
    · rename_i w heq
      rw [heq] at hwatch
      exact ⟨fun c t h => by simp at h, fun h => ⟨b, s, .refl, hwatch h⟩⟩
    · rename_i w b' t heq
      rw [heq] at hexec hwatch
      obtain ⟨ihexec, ihwatch⟩ := ih b' t
      refine ⟨fun c u h => ?_, fun h => ?_⟩
      · obtain ⟨b₂, s₂, hr, he⟩ := ihexec c u h
        exact ⟨b₂, s₂, .head (hexec _ _ rfl) hr, he⟩
      · rcases Bool.or_eq_true_iff.mp h with h | h
        · exact ⟨b, s, .refl, hwatch h⟩
        · obtain ⟨b₂, s₂, hr, hw⟩ := ihwatch h
          exact ⟨b₂, s₂, .head (hexec _ _ rfl) hr, hw⟩
    · rename_i w c t heq
      rw [heq] at hexec hwatch
      refine ⟨fun c' u h => ?_, fun h => ⟨b, s, .refl, hwatch h⟩⟩
      obtain ⟨rfl, rfl⟩ := Prod.mk.inj (Option.some.inj h)
      exact ⟨b, s, .refl, hexec _ _ rfl⟩

/-- What the runner returns is an execution, and what it watched was a step of it. -/
theorem watch_sound {next : σ → (o : Op) → Option (Res o × σ)} {bad : σ → σ → Bool} {fuel : ℕ}
    {α : Type} (p : Prog Op Res α) (s : σ) :
    (∀ a t, (watch next bad fuel p s).2 = some (a, t) → Exec (answering next) p s a t) ∧
    ((watch next bad fuel p s).1 = true →
      ∃ u v, Steps (answering next) p s u v ∧ bad u v = true) := by
  induction p generalizing s with
  | ret r =>
    refine ⟨fun a t h => ?_, fun h => by simp [watch] at h⟩
    obtain ⟨rfl, rfl⟩ := Prod.mk.inj (Option.some.inj h)
    exact ⟨rfl, rfl⟩
  | call o k ih =>
    rw [watch]
    split
    · simp
    · rename_i x t hx
      refine ⟨fun a u h => ⟨x, t, hx, (ih x t).1 a u h⟩, fun h => ?_⟩
      rcases Bool.or_eq_true_iff.mp h with h | h
      · exact ⟨s, t, ⟨x, t, hx, .inl ⟨rfl, rfl⟩⟩, h⟩
      · obtain ⟨u, v, hs, hbad⟩ := (ih x t).2 h
        exact ⟨u, v, ⟨x, t, hx, .inr hs⟩, hbad⟩
  | @loop α β γ body b k ihb ih =>
    obtain ⟨hexec, hwatch⟩ := watchIterate_sound (fun b s => ihb b s) fuel b s
    rw [watch]
    split
    · rename_i w heq
      rw [heq] at hwatch
      refine ⟨by simp, fun h => ?_⟩
      obtain ⟨b', s', hr, u, v, hs, hbad⟩ := hwatch h
      exact ⟨u, v, ⟨b', s', hr, .inl hs⟩, hbad⟩
    · rename_i w c t heq
      rw [heq] at hexec hwatch
      obtain ⟨b', s', hr, he⟩ := hexec c t rfl
      refine ⟨fun a u h => ⟨b', s', hr, c, t, he, (ih c t).1 a u h⟩, fun h => ?_⟩
      rcases Bool.or_eq_true_iff.mp h with h | h
      · obtain ⟨b₂, s₂, hr₂, u, v, hs, hbad⟩ := hwatch h
        exact ⟨u, v, ⟨b₂, s₂, hr₂, .inl hs⟩, hbad⟩
      · obtain ⟨u, v, hs, hbad⟩ := (ih c t).2 h
        exact ⟨u, v, ⟨b', s', hr, .inr ⟨c, t, he, hs⟩⟩, hbad⟩

/-- What a run computes about its final state holds of the final state of an execution. -/
theorem exec_of_run {next : σ → (o : Op) → Option (Res o × σ)} {fuel : ℕ} {p : Prog Op Res α}
    {s : σ} {ι : Type} (f : σ → ι) {v : ι} (h : (run next fuel p s).map (fun r => f r.2) = some v) :
    ∃ a t, Exec (answering next) p s a t ∧ f t = v := by
  obtain ⟨⟨a, t⟩, hrun, hv⟩ := Option.map_eq_some_iff.mp h
  exact ⟨a, t, (watch_sound p s).1 a t hrun, hv⟩

end Runner

end Prog

/-- Every answer of `M` is an answer of `N` for the states seen through `view`. -/
def Machine.Refines (M : Machine Op Res σ) (N : Machine Op Res τ) (view : σ → τ) : Prop :=
  ∀ s o x t, M s o x t → N (view s) o x (view t)

namespace Machine.Refines
open Prog

variable {M : Machine Op Res σ} {N : Machine Op Res τ} {view : σ → τ}

theorem exec (h : M.Refines N view) {α : Type} (p : Prog Op Res α) {s t : σ} {a : α}
    (he : Exec M p s a t) : Exec N p (view s) a (view t) := by
  induction p generalizing s t with
  | ret r => exact ⟨he.1, congrArg view he.2⟩
  | call o k ih =>
    obtain ⟨x, u, hx, hk⟩ := he
    exact ⟨x, view u, h s o x u hx, ih x hk⟩
  | @loop α β γ body b k ihb ih =>
    obtain ⟨b', s', hr, c, u, hc, hk⟩ := he
    have hc' := ihb b' hc
    refine ⟨b', view s', ?_, c, view u, hc', ih c hk⟩
    exact hr.lift (fun p : β × σ => (p.1, view p.2)) fun p q hpq => ihb p.1 hpq

theorem steps (h : M.Refines N view) {α : Type} (p : Prog Op Res α) {s u v : σ}
    (hs : Steps M p s u v) : Steps N p (view s) (view u) (view v) := by
  induction p generalizing s with
  | ret a => exact hs
  | call o k ih =>
    obtain ⟨x, t, hx, ⟨rfl, rfl⟩ | hk⟩ := hs
    · exact ⟨x, view v, h u o x v hx, .inl ⟨rfl, rfl⟩⟩
    · exact ⟨x, view t, h s o x t hx, .inr (ih x hk)⟩
  | @loop α β γ body b k ihb ih =>
    obtain ⟨b', s', hr, hk⟩ := hs
    refine ⟨b', view s', hr.lift (fun p : β × σ => (p.1, view p.2))
      fun p q hpq => h.exec (body p.1) hpq, ?_⟩
    rcases hk with hk | ⟨c, t, hc, hk⟩
    · exact .inl (ihb b' hk)
    · exact .inr ⟨c, view t, h.exec (body b') hc, ih c hk⟩

/-- What a program meets on the abstract machine it meets on the concrete one. -/
theorem meets (h : M.Refines N view) {p : Prog Op Res α} {G : τ → τ → Prop}
    {Q : α → τ → Prop} {s : σ} (hp : Meets N G p Q (view s)) :
    Meets M (fun u v => view u ≠ view v → G (view u) (view v)) p (fun a t => Q a (view t)) s :=
  ⟨fun _ _ hs _ hne => hp.1 _ _ (h.steps p hs) hne, fun _ _ he => hp.2 _ _ (h.exec p he)⟩

end Machine.Refines

section History

/-- A machine that also keeps the operations it has answered. -/
def Machine.logged (M : Machine Op Res σ) : Machine Op Res (σ × List Op) :=
  fun s o x t => M s.1 o x t.1 ∧ t.2 = s.2 ++ [o]

theorem Machine.logged_refines (M : Machine Op Res σ) : M.logged.Refines M Prod.fst :=
  fun _ _ _ _ h => h.1

end History

end PynqPrio.Programs
