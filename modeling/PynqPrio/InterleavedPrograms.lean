import PynqPrio.DriverLayers

/-!
# Programs that run interleaved

The operations of a program one at a time. A driver with a memory of its own is a program
of its messages alone, and several of them share a device: in each step one of them
exchanges a message with it.
-/
namespace PynqPrio.Programs
open Prog

section SmallStep

variable {Op : Type} {Res : Op → Type} {σ α β γ : Type} {M : Machine Op Res σ}

namespace Prog

/-- A loop goes round once. -/
def unroll (body : β → Prog Op Res (β ⊕ γ)) (k : γ → Prog Op Res α) : β ⊕ γ → Prog Op Res α
  | .inl b => .loop body b k
  | .inr c => k c

/-- One operation, or the entry of a loop. -/
def SmallStep (M : Machine Op Res σ) : Prog Op Res α → σ → Prog Op Res α → σ → Prop
  | .ret _, _, _, _ => False
  | .call o k, s, q, t => ∃ x, M s o x t ∧ q = k x
  | .loop body b k, s, q, t => q = (body b).bind (unroll body k) ∧ t = s

inductive SmallSteps (M : Machine Op Res σ) :
    Prog Op Res α → σ → Prog Op Res α → σ → Prop where
  | refl (p : Prog Op Res α) (s : σ) : SmallSteps M p s p s
  | head {p q r : Prog Op Res α} {s t u : σ} (first : SmallStep M p s q t)
      (rest : SmallSteps M q t r u) : SmallSteps M p s r u

def nextOp : Prog Op Res α → Option Op
  | .call o _ => some o
  | _ => none

def isRet : Prog Op Res α → Bool
  | .ret _ => true
  | _ => false

end Prog

theorem smallStep_bind {p q : Prog Op Res α} {s t : σ} (f : α → Prog Op Res γ)
    (h : SmallStep M p s q t) : SmallStep M (p.bind f) s (q.bind f) t := by
  cases p with
  | ret a => exact h.elim
  | call o k =>
    obtain ⟨x, hx, rfl⟩ := h
    exact ⟨x, hx, rfl⟩
  | loop body b k =>
    obtain ⟨rfl, rfl⟩ := h
    refine ⟨?_, rfl⟩
    rw [bind_assoc]
    refine congrArg _ (funext fun r => ?_)
    cases r with
    | inl b' => rfl
    | inr c => rfl

theorem Prog.SmallSteps.trans {p q r : Prog Op Res α} {s t u : σ} (h : SmallSteps M p s q t)
    (h' : SmallSteps M q t r u) : SmallSteps M p s r u := by
  induction h with
  | refl => exact h'
  | head first _ ih => exact .head first (ih h')

theorem smallSteps_bind {p q : Prog Op Res α} {s t : σ} (f : α → Prog Op Res γ)
    (h : SmallSteps M p s q t) : SmallSteps M (p.bind f) s (q.bind f) t := by
  induction h with
  | refl => exact .refl _ _
  | head first _ ih => exact .head (smallStep_bind f first) ih

/-- An execution is a sequence of small steps. -/
theorem smallSteps_of_exec {p : Prog Op Res α} {s t : σ} {a : α} (h : Exec M p s a t) :
    SmallSteps M p s (.ret a) t := by
  induction p generalizing s t with
  | ret r =>
    obtain ⟨rfl, rfl⟩ := h
    exact .refl _ _
  | call o k ih =>
    obtain ⟨x, u, hx, hk⟩ := h
    exact .head ⟨x, hx, rfl⟩ (ih x hk)
  | @loop α β γ body b k ihb ih =>
    obtain ⟨b', s', hreach, c, u, hc, hk⟩ := h
    have hround : ∀ (b : β) (s : σ) (r : β ⊕ γ) (t : σ), Exec M (body b) s r t →
        SmallSteps M (.loop body b k) s (unroll body k r) t := by
      intro b s r t hr
      have hbody := smallSteps_bind (unroll body k) (ihb b hr)
      exact .head ⟨rfl, rfl⟩ hbody
    have hrounds : ∀ q : β × σ, Relation.ReflTransGen
        (fun p q : β × σ => Exec M (body p.1) p.2 (.inl q.1) q.2) (b, s) q →
        SmallSteps M (.loop body b k) s (.loop body q.1 k) q.2 := by
      intro q hq
      induction hq with
      | refl => exact .refl _ _
      | tail _ hstep ih => exact ih.trans (hround _ _ _ _ hstep)
    exact ((hrounds _ hreach).trans (hround b' s' (.inr c) u hc)).trans (ih c hk)

theorem exec_of_smallStep {p q : Prog Op Res α} {s t u : σ} {a : α} (h : SmallStep M p s q t)
    (hq : Exec M q t a u) : Exec M p s a u := by
  cases p with
  | ret r => exact h.elim
  | call o k =>
    obtain ⟨x, hx, rfl⟩ := h
    exact ⟨x, t, hx, hq⟩
  | loop body b k =>
    obtain ⟨rfl, rfl⟩ := h
    obtain ⟨r, w, hr, hk⟩ := (exec_bind _ _ _ _ _).mp hq
    cases r with
    | inl b' =>
      obtain ⟨b'', s'', hreach, hrest⟩ := hk
      exact ⟨b'', s'', .head hr hreach, hrest⟩
    | inr c => exact ⟨b, t, .refl, c, w, hr, hk⟩

/-- The executions of a program are what its small steps come to. -/
theorem exec_iff_smallSteps {p : Prog Op Res α} {s t : σ} {a : α} :
    Exec M p s a t ↔ SmallSteps M p s (.ret a) t := by
  constructor
  · exact smallSteps_of_exec
  · intro h
    generalize hend : Prog.ret a = q at h
    induction h with
    | refl p s =>
      subst hend
      exact ⟨rfl, rfl⟩
    | head first _ ih => exact exec_of_smallStep first (ih hend)

end SmallStep

namespace Driver

variable {D E P δ α β γ : Type} {R : P → Type} {dev : Machine P R δ}

/-- The memory goes along with an answer of a loop's body. -/
def carried : (β ⊕ γ) × D → (β × D) ⊕ (γ × D)
  | (.inl b, d) => .inl (b, d)
  | (.inr c, d) => .inr (c, d)

/-- The messages of a driver with the memory `d`, which nobody else changes. -/
def messages : {α : Type} → Driver D E R α → D → Prog P R (α × D)
  | _, .ret a, d => .ret (a, d)
  | _, .call .get k, d => messages (k d) d
  | _, .call (.set d') k, _ => messages (k ()) d'
  | _, .call (.note _) k, d => messages (k ()) d
  | _, .call (.port p) k, d => .call p fun x => messages (k x) d
  | _, .loop body b k, d =>
    .loop (fun x => (messages (body x.1) x.2).bind fun r => .ret (carried r)) (b, d)
      fun c => messages (k c.1) c.2

theorem exec_carried {β γ : Type} {q : Driver D E R (β ⊕ γ)} {d d' : D} {e e' : δ} {r : β ⊕ γ} :
    Exec dev ((messages q d).bind fun r => .ret (carried r)) e (carried (r, d')) e' ↔
      Exec dev (messages q d) e (r, d') e' := by
  rw [exec_bind]
  constructor
  · rintro ⟨⟨r', d''⟩, u, hq, hret, rfl⟩
    have hsame : (r, d') = (r', d'') := by
      cases r <;> cases r' <;> cases hret <;> rfl
    rw [hsame]
    exact hq
  · intro hq
    exact ⟨_, _, hq, rfl, rfl⟩

theorem messages_of_exec {q : Driver D E R α} {s t : Config D E δ} {a : α}
    (h : Exec (withMemory dev) q s a t) : Exec dev (messages q s.mem) s.dev (a, t.mem) t.dev := by
  induction q generalizing s t with
  | ret r =>
    obtain ⟨rfl, rfl⟩ := h
    exact ⟨rfl, rfl⟩
  | call o k ih =>
    obtain ⟨x, u, hx, hk⟩ := h
    cases o with
    | get =>
      obtain ⟨rfl, rfl⟩ := hx
      exact ih _ hk
    | set d =>
      obtain rfl : u = s.withMem d := hx
      exact ih () hk
    | note e =>
      obtain rfl : u = s.noted e := hx
      exact ih () (s := s.noted e) hk
    | port p =>
      obtain ⟨e, he, rfl⟩ := hx
      exact ⟨x, e, he, ih x hk⟩
  | @loop α β γ body b k ihb ih =>
    obtain ⟨b', s', hreach, c, u, hc, hk⟩ := h
    have hrounds : ∀ x : β × Config D E δ, Relation.ReflTransGen
        (fun p q : β × Config D E δ => Exec (withMemory dev) (body p.1) p.2 (.inl q.1) q.2) (b, s) x →
        Relation.ReflTransGen (fun p q : (β × D) × δ =>
          Exec dev ((messages (body p.1.1) p.1.2).bind fun r => .ret (carried r)) p.2 (.inl q.1) q.2)
          ((b, s.mem), s.dev) ((x.1, x.2.mem), x.2.dev) := by
      intro x hx
      induction hx with
      | refl => exact .refl
      | tail _ hstep hreach => exact hreach.tail (exec_carried.mpr (ihb _ hstep))
    exact ⟨(b', s'.mem), s'.dev, hrounds _ hreach, (c, u.mem), u.dev, exec_carried.mpr (ihb b' hc),
      ih c hk⟩

theorem exec_of_messages {q : Driver D E R α} {d d' : D} {e e' : δ} {a : α} (l : List E)
    (h : Exec dev (messages q d) e (a, d') e') :
    ∃ l', Exec (withMemory dev) q ⟨d, l, e⟩ a ⟨d', l', e'⟩ := by
  induction q generalizing d d' e e' l with
  | ret r =>
    obtain ⟨hret, rfl⟩ := h
    obtain ⟨rfl, rfl⟩ := Prod.mk.inj hret
    exact ⟨l, rfl, rfl⟩
  | call o k ih =>
    cases o with
    | get =>
      obtain ⟨l', hk⟩ := ih d l h
      exact ⟨l', d, _, ⟨rfl, rfl⟩, hk⟩
    | set d'' =>
      obtain ⟨l', hk⟩ := ih () l h
      exact ⟨l', (), _, rfl, hk⟩
    | note e'' =>
      obtain ⟨l', hk⟩ := ih () (l ++ [e'']) h
      exact ⟨l', (), _, rfl, hk⟩
    | port p =>
      obtain ⟨x, e'', hx, h⟩ := h
      obtain ⟨l', hk⟩ := ih x l h
      exact ⟨l', x, _, ⟨e'', hx, rfl⟩, hk⟩
  | @loop α β γ body b k ihb ih =>
    obtain ⟨⟨b', d''⟩, e'', hreach, ⟨c, d₁⟩, u, hc, hk⟩ := h
    have hrounds : ∀ x : (β × D) × δ, Relation.ReflTransGen (fun p q : (β × D) × δ =>
        Exec dev ((messages (body p.1.1) p.1.2).bind fun r => .ret (carried r)) p.2 (.inl q.1) q.2)
        ((b, d), e) x → ∃ l', Relation.ReflTransGen (fun p q : β × Config D E δ =>
          Exec (withMemory dev) (body p.1) p.2 (.inl q.1) q.2) (b, ⟨d, l, e⟩)
          (x.1.1, ⟨x.1.2, l', x.2⟩) := by
      intro x hx
      induction hx with
      | refl => exact ⟨l, .refl⟩
      | @tail y z _ hstep hreach =>
        obtain ⟨l'', hreach⟩ := hreach
        have hstep' : Exec dev ((messages (body y.1.1) y.1.2).bind fun r => .ret (carried r)) y.2
          (carried (.inl z.1.1, z.1.2)) z.2 := hstep
        obtain ⟨l', hbody⟩ := ihb _ l'' (exec_carried.mp hstep')
        exact ⟨l', hreach.tail hbody⟩
    obtain ⟨l₁, hreach⟩ := hrounds _ hreach
    have hc' : Exec dev ((messages (body b') d'').bind fun r => .ret (carried r)) e''
      (carried (.inr c, d₁)) u := hc
    obtain ⟨l₂, hbody⟩ := ihb _ l₁ (exec_carried.mp hc')
    obtain ⟨l₃, hk⟩ := ih c l₂ hk
    exact ⟨l₃, b', _, hreach, c, _, hbody, hk⟩

end Driver

section Threads

variable {ι P δ α : Type} {R : P → Type} [DecidableEq ι] {dev : Machine P R δ}

structure Threads (ι : Type) {P : Type} (R : P → Type) (α δ : Type) where
  dev : δ
  prog : ι → Prog P R α

/-- One of the programs takes a step. -/
def ThreadStep (dev : Machine P R δ) (i : ι) (s t : Threads ι R α δ) : Prop :=
  ∃ q, SmallStep dev (s.prog i) s.dev q t.dev ∧ t.prog = Function.update s.prog i q

/-- The steps that a program takes alone are those of its execution. -/
theorem threadSteps_alone {i : ι} {s t : Threads ι R α δ}
    (h : Relation.ReflTransGen (ThreadStep dev i) s t) :
    SmallSteps dev (s.prog i) s.dev (t.prog i) t.dev ∧ ∀ j, j ≠ i → t.prog j = s.prog j := by
  induction h using Relation.ReflTransGen.head_induction_on with
  | refl => exact ⟨.refl _ _, fun _ _ => rfl⟩
  | head hstep _ ih =>
    obtain ⟨q, hq, hprog⟩ := hstep
    obtain ⟨hrest, hother⟩ := ih
    rw [hprog] at hrest hother
    rw [Function.update_self] at hrest
    refine ⟨.head hq hrest, fun j hj => ?_⟩
    rw [hother j hj, Function.update_of_ne hj]

/-- A program can take its steps while the others wait. -/
theorem threadSteps_of_smallSteps {i : ι} {s : Threads ι R α δ} {q : Prog P R α} {e : δ}
    (h : SmallSteps dev (s.prog i) s.dev q e) :
    Relation.ReflTransGen (ThreadStep dev i) s ⟨e, Function.update s.prog i q⟩ := by
  generalize hp : s.prog i = p at h
  generalize hd : s.dev = d at h
  induction h generalizing s with
  | refl p d =>
    subst hp hd
    rw [Function.update_eq_self]
  | @head p q r d t u first _ ih =>
    subst hp hd
    let s' : Threads ι R α δ := ⟨t, Function.update s.prog i q⟩
    have hrest := @ih s' (Function.update_self i q s.prog) rfl
    change Relation.ReflTransGen _ s' ⟨u, Function.update (Function.update s.prog i q) i r⟩ at hrest
    rw [Function.update_idem] at hrest
    exact .head ⟨q, first, rfl⟩ hrest

end Threads

end PynqPrio.Programs
