import PynqPrio.InterleavedPrograms

/-!
# Proof outlines

An outline of a program says in which states its operations are issued and in which it
ends. Each step leaves an outline of what remains of the program. Steps that other programs
take in between do no harm if they keep the view of the state that the outline is about.
-/
namespace PynqPrio.Programs
open Prog

section Outline

variable {Op : Type} {Res : Op → Type} {σ τ α β γ : Type} {M : Machine Op Res σ}
  {ok : Op → σ → Prop} {p q : Prog Op Res α} {s t : σ}

namespace Prog

/-- Every operation is issued in a state with `ok`, and the program ends in one with `Q`. -/
def Outline (M : Machine Op Res σ) (ok : Op → σ → Prop) :
    {α : Type} → Prog Op Res α → (α → σ → Prop) → σ → Prop
  | _, .ret a, Q, s => Q a s
  | _, .call o k, Q, s => ok o s ∧ ∀ x t, M s o x t → Outline M ok (k x) Q t
  | _, .loop (β := β) body b k, Q, s => ∃ J : β → σ → Prop, J b s ∧ ∀ b s, J b s →
      Outline M ok (body b) (fun r t => match r with
        | .inl b' => J b' t
        | .inr c => Outline M ok (k c) Q t) s

/-- All operations of the program are in `ok`. -/
def Uses (ok : Op → Prop) : {α : Type} → Prog Op Res α → Prop
  | _, .ret _ => True
  | _, .call o k => ok o ∧ ∀ x, Uses ok (k x)
  | _, .loop body _ k => (∀ b, Uses ok (body b)) ∧ ∀ c, Uses ok (k c)

end Prog

theorem Prog.Outline.imp {Q Q' : α → σ → Prop} (h : Outline M ok p Q s)
    (hQ : ∀ a t, Q a t → Q' a t) : Outline M ok p Q' s := by
  induction p generalizing s with
  | ret a => exact hQ a s h
  | call o k ih => exact ⟨h.1, fun x t hx => ih x (h.2 x t hx) hQ⟩
  | loop body b k ihb ih =>
    obtain ⟨J, hJ, hbody⟩ := h
    refine ⟨J, hJ, fun b s hb => ihb b (hbody b s hb) fun r t hr => ?_⟩
    cases r with
    | inl b' => exact hr
    | inr c => exact ih c hr hQ

theorem outline_bind {Q : γ → σ → Prop} (p : Prog Op Res α) (f : α → Prog Op Res γ) :
    Outline M ok (p.bind f) Q s ↔ Outline M ok p (fun a t => Outline M ok (f a) Q t) s := by
  induction p generalizing s with
  | ret a => exact Iff.rfl
  | call o k ih => simp only [Prog.bind, Outline, ih]
  | loop body b k _ ih => simp only [Prog.bind, Outline, ih]

/-- What remains of a program after a step has an outline. -/
theorem Prog.Outline.step {Q : α → σ → Prop} (h : Outline M ok p Q s)
    (hstep : SmallStep M p s q t) : Outline M ok q Q t := by
  cases p with
  | ret a => exact hstep.elim
  | call o k =>
    obtain ⟨x, hx, rfl⟩ := hstep
    exact h.2 x t hx
  | loop body b k =>
    obtain ⟨rfl, rfl⟩ := hstep
    obtain ⟨J, hJ, hbody⟩ := h
    refine (outline_bind _ _).mpr ((hbody b t hJ).imp fun r u hr => ?_)
    cases r with
    | inl b' => exact ⟨J, hr, hbody⟩
    | inr c => exact hr

/-- The operation that comes next is issued in a state with `ok`. -/
theorem Prog.Outline.next {Q : α → σ → Prop} {o : Op} (h : Outline M ok p Q s)
    (hnext : p.nextOp = some o) : ok o s := by
  cases p with
  | ret a => cases hnext
  | call o' k =>
    obtain rfl := Option.some.inj hnext
    exact h.1
  | loop body b k => cases hnext

/-- A program whose operations all keep an invariant. -/
theorem Prog.Uses.outline {quiet : Op → Prop} {I : σ → Prop} (h : p.Uses quiet)
    (hquiet : ∀ o s, quiet o → I s → ok o s ∧ ∀ x t, M s o x t → I t) (hs : I s) :
    Outline M ok p (fun _ t => I t) s := by
  induction p generalizing s with
  | ret a => exact hs
  | call o k ih =>
    obtain ⟨hok, hkeep⟩ := hquiet o s h.1 hs
    exact ⟨hok, fun x t hx => ih x (h.2 x) (hkeep x t hx)⟩
  | loop body b k ihb ih =>
    refine ⟨fun _ t => I t, hs, fun b s hb => (ihb b (h.1 b) hb).imp fun r t ht => ?_⟩
    cases r with
    | inl b' => exact ht
    | inr c => exact ih c (h.2 c) ht

/-- A step of a machine is one of the machine it refines. -/
theorem smallStep_refines {N : Machine Op Res τ} {view : σ → τ} (h : M.Refines N view)
    (hstep : SmallStep M p s q t) : SmallStep N p (view s) q (view t) := by
  cases p with
  | ret a => exact hstep.elim
  | call o k =>
    obtain ⟨x, hx, rfl⟩ := hstep
    exact ⟨x, h s o x t hx, rfl⟩
  | loop body b k =>
    obtain ⟨rfl, rfl⟩ := hstep
    exact ⟨rfl, rfl⟩

end Outline

namespace Driver

variable {D E P P' σ α β γ : Type} {R : P → Type} {R' : P' → Type} {M : Machine P R σ}
  {ok : P → σ → Prop} {d : D} {s : σ}

theorem messages_bind (q : Driver D E R α) (f : α → Driver D E R γ) (d : D) :
    messages (q >>= f) d = (messages q d).bind fun r => messages (f r.1) r.2 := by
  change messages (q.bind f) d = _
  induction q generalizing d with
  | ret a => rfl
  | call o k ih =>
    cases o with
    | get => exact ih d f d
    | set d' => exact ih () f d'
    | note e => exact ih () f d
    | port p => exact congrArg (Prog.call p) (funext fun x => ih x f d)
  | loop body b k _ ih =>
    exact congrArg (Prog.loop _ _) (funext fun c => ih c.1 f c.2)

section Rules

variable {Q : α × D → σ → Prop}

theorem outline_messages_bind {Q : γ × D → σ → Prop} (q : Driver D E R α)
    (f : α → Driver D E R γ) : Outline M ok (messages (q >>= f) d) Q s ↔
      Outline M ok (messages q d) (fun r t => Outline M ok (messages (f r.1) r.2) Q t) s := by
  rw [messages_bind, outline_bind]

theorem outline_messages_pure (a : α) :
    Outline M ok (messages (pure a : Driver D E R α) d) Q s ↔ Q (a, d) s := Iff.rfl

theorem outline_messages_ite (c : Prop) [Decidable c] (q r : Driver D E R α) :
    Outline M ok (messages (if c then q else r) d) Q s ↔
      (c → Outline M ok (messages q d) Q s) ∧ (¬c → Outline M ok (messages r d) Q s) := by
  by_cases h : c <;> simp [h]

theorem outline_messages_port (p : P) {Q : R p × D → σ → Prop} :
    Outline M ok (messages (port p : Driver D E R (R p)) d) Q s ↔
      ok p s ∧ ∀ x t, M s p x t → Q (x, d) t := Iff.rfl

end Rules

/-- All ports that the driver uses are in `ok`. -/
def UsesPorts (ok : P → Prop) : {α : Type} → Driver D E R α → Prop
  | _, .ret _ => True
  | _, .call o k => (∀ p, o = .port p → ok p) ∧ ∀ x, UsesPorts ok (k x)
  | _, .loop body _ k => (∀ b, UsesPorts ok (body b)) ∧ ∀ c, UsesPorts ok (k c)

namespace UsesPorts

variable {quiet : P → Prop}

theorem pure (a : α) : UsesPorts quiet (pure a : Driver D E R α) := trivial

theorem bind {q : Driver D E R α} {f : α → Driver D E R γ} (hq : UsesPorts quiet q)
    (hf : ∀ a, UsesPorts quiet (f a)) : UsesPorts quiet (q >>= f) := by
  change UsesPorts quiet (q.bind f)
  induction q with
  | ret a => exact hf a
  | call o k ih => exact ⟨hq.1, fun x => ih x (hq.2 x) hf⟩
  | loop body b k _ ih => exact ⟨hq.1, fun c => ih c (hq.2 c) hf⟩

theorem ite {c : Prop} [Decidable c] {q r : Driver D E R α} (hq : UsesPorts quiet q)
    (hr : UsesPorts quiet r) : UsesPorts quiet (if c then q else r) := by
  by_cases h : c <;> simpa [h]

theorem get : UsesPorts quiet (get : Driver D E R D) := by
  refine ⟨fun p hp => ?_, fun _ => trivial⟩
  cases hp

theorem set (d : D) : UsesPorts quiet (set d : Driver D E R Unit) := by
  refine ⟨fun p hp => ?_, fun _ => trivial⟩
  cases hp

theorem note (e : E) : UsesPorts quiet (note e : Driver D E R Unit) := by
  refine ⟨fun p hp => ?_, fun _ => trivial⟩
  cases hp

theorem port {p : P} (h : quiet p) : UsesPorts quiet (port p : Driver D E R (R p)) := by
  refine ⟨fun p' hp => ?_, fun _ => trivial⟩
  cases hp
  exact h

theorem iterate {body : β → Driver D E R (β ⊕ γ)} {b : β}
    (hbody : ∀ b, UsesPorts quiet (body b)) : UsesPorts quiet (Prog.iterate body b) :=
  ⟨hbody, fun _ => trivial⟩

/-- A driver uses the ports that its own ones are implemented by. -/
theorem lower {h : (p : P') → Driver D E R (R' p)} (hh : ∀ p, UsesPorts quiet (h p))
    (q : Driver D E R' α) : UsesPorts quiet (lower h q) := by
  induction q with
  | ret a => trivial
  | call o k ih =>
    refine .bind ?_ ih
    cases o with
    | get => exact .get
    | set d => exact .set d
    | note e => exact .note e
    | port p => exact hh p
  | loop body b k ihb ih => exact ⟨ihb, ih⟩

theorem messages {q : Driver D E R α} (hq : UsesPorts quiet q) (d : D) :
    (messages q d).Uses quiet := by
  have hbind : ∀ {α β : Type} (p : Prog P R α) (f : α → Prog P R β), p.Uses quiet →
      (∀ a, (f a).Uses quiet) → (p.bind f).Uses quiet := by
    intro α β p f hp hf
    induction p with
    | ret a => exact hf a
    | call o k ih => exact ⟨hp.1, fun x => ih x f (hp.2 x) hf⟩
    | loop body b k _ ih => exact ⟨hp.1, fun c => ih c f (hp.2 c) hf⟩
  induction q generalizing d with
  | ret a => trivial
  | call o k ih =>
    cases o with
    | get => exact ih d (hq.2 d) d
    | set d' => exact ih () (hq.2 ()) d'
    | note e => exact ih () (hq.2 ()) d
    | port p => exact ⟨hq.1 p rfl, fun x => ih x (hq.2 x) d⟩
  | loop body b k ihb ih =>
    exact ⟨fun x => hbind _ _ (ihb x.1 (hq.1 x.1) x.2) fun _ => trivial,
      fun c => ih c.1 (hq.2 c.1) c.2⟩

/-- A driver that only uses quiet ports keeps what they keep of the device. -/
theorem meets {δ : Type} {dev : Machine P R δ} {H : δ → δ → Prop} [Std.Refl H] {I : δ → Prop}
    {q : Driver D E R α} (hq : UsesPorts quiet q)
    (hquiet : ∀ p e x e', quiet p → I e → dev e p x e' → H e e' ∧ I e')
    {s : Config D E δ} (hs : I s.dev) :
    Meets (withMemory dev) (onDev H) q (fun _ t => I t.dev) s := by
  induction q generalizing s with
  | ret a => exact (meets_pure a).mpr hs
  | call o k ih =>
    cases o with
    | get => exact (meets_bind _ _).mpr (meets_get.mpr (ih s.mem (hq.2 s.mem) hs))
    | set d => exact (meets_bind _ _).mpr ((meets_onDev_set d).mpr (ih () (hq.2 ()) hs))
    | note e => exact (meets_bind _ _).mpr ((meets_onDev_note e).mpr (ih () (hq.2 ()) hs))
    | port p =>
      refine (meets_bind _ _).mpr ((meets_onDev_port p).mpr fun x e he => ?_)
      obtain ⟨hH, he'⟩ := hquiet p s.dev x e (hq.1 p rfl) hs he
      exact ⟨hH, ih x (hq.2 x) he'⟩
  | loop body b k ihb ih =>
    refine meets_loop (fun _ t => I t.dev) hs fun b s hb => (ihb b (hq.1 b) hb).imp ?_
    rintro (b' | c) t ht
    · exact ht
    · exact ih c (hq.2 c) ht

/-- A driver that uses no port leaves the device alone. -/
theorem dev_eq {δ : Type} {dev : Machine P R δ} {q : Driver D E R α}
    (hq : UsesPorts (fun _ => False) q) {s t : Config D E δ} {a : α}
    (h : Exec (withMemory dev) q s a t) : t.dev = s.dev :=
  (hq.meets (H := anyAccess) (I := fun e => e = s.dev) (fun _ _ _ _ hp _ _ => hp.elim) rfl).2 a t h

end UsesPorts

end Driver
end PynqPrio.Programs
