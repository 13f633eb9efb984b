import PynqPrio.RegisterPrograms
import Mathlib.Data.List.Infix

/-!
# Drivers: programs over a private memory, a trace and the ports of a device

The memory operations are answered from the driver's own state, a port operation by
the device, and `note` records an event in the trace, which no program can shorten.
`anyDevice` gives every answer to every port operation. Each device refines it, so an
invariant proved on `anyDevice` holds on every device.
-/
namespace PynqPrio.Programs
open Prog

/-- Operations of a driver with memory `D` and events `E` on a device with ports `P`. -/
inductive MemOp (D E P : Type) where
  | get
  | set (d : D)
  | note (e : E)
  | port (p : P)

/-- Answers of the memory operations, and `R` for the ports. -/
def MemOp.Res (D E : Type) {P : Type} (R : P → Type) : MemOp D E P → Type
  | .get => D
  | .set _ => Unit
  | .note _ => Unit
  | .port p => R p

/-- Programs of a driver. -/
abbrev Driver (D E : Type) {P : Type} (R : P → Type) := Prog (MemOp D E P) (MemOp.Res D E R)

structure Config (D E δ : Type) where
  mem : D
  trace : List E
  dev : δ

variable {D E P δ χ α : Type} {R : P → Type}

namespace Config

def withMem (s : Config D E δ) (d : D) : Config D E δ := { s with mem := d }

def noted (s : Config D E δ) (e : E) : Config D E δ := { s with trace := s.trace ++ [e] }

def withDev (s : Config D E δ) (e : δ) : Config D E δ := { s with dev := e }

variable (s : Config D E δ)

@[simp] theorem withMem_mem (d : D) : (s.withMem d).mem = d := rfl
@[simp] theorem withMem_trace (d : D) : (s.withMem d).trace = s.trace := rfl
@[simp] theorem withMem_dev (d : D) : (s.withMem d).dev = s.dev := rfl
@[simp] theorem noted_mem (e : E) : (s.noted e).mem = s.mem := rfl
@[simp] theorem noted_trace (e : E) : (s.noted e).trace = s.trace ++ [e] := rfl
@[simp] theorem noted_dev (e : E) : (s.noted e).dev = s.dev := rfl
@[simp] theorem withDev_mem (e : δ) : (s.withDev e).mem = s.mem := rfl
@[simp] theorem withDev_trace (e : δ) : (s.withDev e).trace = s.trace := rfl
@[simp] theorem withDev_dev (e : δ) : (s.withDev e).dev = e := rfl

theorem noted_ne (e : E) : s ≠ s.noted e := fun h => by
  simpa using congrArg (fun s => s.trace.length) h

end Config

namespace Driver

def get : Driver D E R D := .call .get .ret

def set (d : D) : Driver D E R Unit := .call (.set d) .ret

def modify (f : D → D) : Driver D E R Unit := do
  let d ← get
  set (f d)

def note (e : E) : Driver D E R Unit := .call (.note e) .ret

def port (p : P) : Driver D E R (R p) := .call (.port p) .ret

/-- A step that is taken only if `c` holds. -/
def onlyIf (c : Prop) [Decidable c] (p : Driver D E R Unit) : Driver D E R Unit :=
  if c then p else pure ()

end Driver
open Driver

/-- A driver running on the device `dev`. -/
def withMemory (dev : Machine P R δ) : Machine (MemOp D E P) (MemOp.Res D E R) (Config D E δ)
  | s, .get, x, t => x = s.mem ∧ t = s
  | s, .set d, _, t => t = s.withMem d
  | s, .note e, _, t => t = s.noted e
  | s, .port p, x, t => ∃ e, dev s.dev p x e ∧ t = s.withDev e

/-- A driver on a device that may give every answer to every port operation. -/
def anyDevice : Machine (MemOp D E P) (MemOp.Res D E R) (Config D E Unit) :=
  withMemory fun _ _ _ _ => True

/-- The state without the device. -/
def Config.core (s : Config D E δ) : Config D E Unit := { s with dev := () }

theorem Config.mem_of_core {s t : Config D E δ} (h : s.core = t.core) : s.mem = t.mem :=
  congrArg (fun c => c.mem) h

theorem withMemory_refines_anyDevice (dev : Machine P R δ) :
    (withMemory (D := D) (E := E) dev).Refines anyDevice Config.core := by
  intro s o x t h
  cases o with
  | get => exact ⟨h.1, congrArg Config.core h.2⟩
  | set d => exact congrArg Config.core h
  | note e => exact congrArg Config.core h
  | port p =>
    obtain ⟨e, _, rfl⟩ := h
    exact ⟨(), trivial, rfl⟩

/-- A driver on a device that refines another one refines it as well. -/
theorem withMemory_refines {dev dev' : Machine P R δ} (h : dev.Refines dev' id) :
    (withMemory (D := D) (E := E) dev).Refines (withMemory dev') id := by
  intro s o x t hx
  cases o with
  | get => exact hx
  | set d => exact hx
  | note e => exact hx
  | port p =>
    obtain ⟨e, he, ht⟩ := hx
    exact ⟨e, h _ _ _ _ he, ht⟩

/-- The configuration with the device seen through `view`. -/
def Config.mapDev {δ' : Type} (view : δ → δ') (s : Config D E δ) : Config D E δ' :=
  { s with dev := view s.dev }

/-- A driver on a device that refines another one through `view`. -/
theorem withMemory_refines_view {δ' : Type} {dev : Machine P R δ} {dev' : Machine P R δ'}
    {view : δ → δ'} (h : dev.Refines dev' view) :
    (withMemory (D := D) (E := E) dev).Refines (withMemory dev') (Config.mapDev view) := by
  intro s o x t hx
  cases o with
  | get => exact ⟨hx.1, congrArg (Config.mapDev view) hx.2⟩
  | set d => exact congrArg (Config.mapDev view) hx
  | note e => exact congrArg (Config.mapDev view) hx
  | port p =>
    obtain ⟨e, he, rfl⟩ := hx
    exact ⟨view e, h _ _ _ _ he, rfl⟩

section Rules

variable {dev : Machine P R δ} {s : Config D E δ} {G : Config D E δ → Config D E δ → Prop}

@[simp] theorem meets_get {Q : D → Config D E δ → Prop} :
    Meets (withMemory dev) G (get : Driver D E R D) Q s ↔ Q s.mem s := by
  refine (meets_call _ _).trans ⟨fun h => (meets_pure _).mp (h s.mem s ⟨rfl, rfl⟩).2, ?_⟩
  rintro h x t ⟨rfl, rfl⟩
  exact ⟨fun hne => absurd rfl hne, (meets_pure _).mpr h⟩

@[simp] theorem meets_set (d : D) {Q : Unit → Config D E δ → Prop} :
    Meets (withMemory dev) G (set d : Driver D E R Unit) Q s ↔
      (s ≠ s.withMem d → G s (s.withMem d)) ∧ Q () (s.withMem d) := by
  refine (meets_call _ _).trans ⟨fun h => (h () _ rfl).imp_right (meets_pure _).mp, ?_⟩
  rintro h x t rfl
  exact h.imp_right (meets_pure _).mpr

@[simp] theorem meets_modify (f : D → D) {Q : Unit → Config D E δ → Prop} :
    Meets (withMemory dev) G (modify f : Driver D E R Unit) Q s ↔
      (s ≠ s.withMem (f s.mem) → G s (s.withMem (f s.mem))) ∧
        Q () (s.withMem (f s.mem)) := by
  rw [Driver.modify, meets_bind, meets_get, meets_set]

@[simp] theorem meets_note (e : E) {Q : Unit → Config D E δ → Prop} :
    Meets (withMemory dev) G (note e : Driver D E R Unit) Q s ↔
      G s (s.noted e) ∧ Q () (s.noted e) := by
  refine (meets_call _ _).trans
    ⟨fun h => ⟨(h () _ rfl).1 (s.noted_ne e), (meets_pure _).mp (h () _ rfl).2⟩, ?_⟩
  rintro h x t rfl
  exact ⟨fun _ => h.1, (meets_pure _).mpr h.2⟩

@[simp] theorem meets_port (p : P) {Q : R p → Config D E δ → Prop} :
    Meets (withMemory dev) G (port p : Driver D E R (R p)) Q s ↔
      ∀ x e, dev s.dev p x e →
        (s ≠ s.withDev e → G s (s.withDev e)) ∧ Q x (s.withDev e) := by
  refine (meets_call _ _).trans
    ⟨fun h x e he => (h x _ ⟨e, he, rfl⟩).imp_right (meets_pure _).mp, ?_⟩
  rintro h x t ⟨e, he, rfl⟩
  exact (h x e he).imp_right (meets_pure _).mpr

end Rules

section AnyRules

variable {s : Config D E Unit} {G : Config D E Unit → Config D E Unit → Prop}

@[simp] theorem meets_any_get {Q : D → Config D E Unit → Prop} :
    Meets anyDevice G (get : Driver D E R D) Q s ↔ Q s.mem s := meets_get

@[simp] theorem meets_any_set (d : D) {Q : Unit → Config D E Unit → Prop} :
    Meets anyDevice G (set d : Driver D E R Unit) Q s ↔
      (s ≠ s.withMem d → G s (s.withMem d)) ∧ Q () (s.withMem d) :=
  meets_set d

@[simp] theorem meets_any_modify (f : D → D) {Q : Unit → Config D E Unit → Prop} :
    Meets anyDevice G (modify f : Driver D E R Unit) Q s ↔
      (s ≠ s.withMem (f s.mem) → G s (s.withMem (f s.mem))) ∧
        Q () (s.withMem (f s.mem)) :=
  meets_modify f

@[simp] theorem meets_any_note (e : E) {Q : Unit → Config D E Unit → Prop} :
    Meets anyDevice G (note e : Driver D E R Unit) Q s ↔
      G s (s.noted e) ∧ Q () (s.noted e) :=
  meets_note e

@[simp] theorem meets_any_port (p : P) {Q : R p → Config D E Unit → Prop} :
    Meets anyDevice G (port p : Driver D E R (R p)) Q s ↔ ∀ x, Q x s := by
  refine (meets_port p).trans ⟨fun h x => (h x () trivial).2, ?_⟩
  exact fun h x e _ => ⟨fun hne => absurd rfl hne, h x⟩

end AnyRules

section Termination

variable {dev : Machine P R δ} {s : Config D E δ}

@[simp] theorem total_get : Total (withMemory dev) (get : Driver D E R D) s :=
  fun _ _ _ => trivial

@[simp] theorem total_set (d : D) : Total (withMemory dev) (set d : Driver D E R Unit) s :=
  fun _ _ _ => trivial

@[simp] theorem total_note (e : E) : Total (withMemory dev) (note e : Driver D E R Unit) s :=
  fun _ _ _ => trivial

@[simp] theorem total_port (p : P) : Total (withMemory dev) (port p : Driver D E R (R p)) s :=
  fun _ _ _ => trivial

@[simp] theorem total_modify (f : D → D) :
    Total (withMemory dev) (modify f : Driver D E R Unit) s := by
  simp [Driver.modify]

/-- With a device that answers every access all operations are answered. -/
theorem withMemory_answers (h : ∀ e p, ∃ x e', dev e p x e') (s : Config D E δ)
    (o : MemOp D E P) : ∃ x t, withMemory dev s o x t := by
  cases o with
  | get => exact ⟨s.mem, s, rfl, rfl⟩
  | set d => exact ⟨(), _, rfl⟩
  | note e => exact ⟨(), _, rfl⟩
  | port p =>
    obtain ⟨x, e', he⟩ := h s.dev p
    exact ⟨x, _, e', he, rfl⟩

/-- What holds on every device holds on this one. -/
theorem exec_of_meets {p : Driver D E R α} {G : Config D E Unit → Config D E Unit → Prop}
    {Q : α → Config D E Unit → Prop} (hp : Meets anyDevice G p Q s.core) {a : α}
    {t : Config D E δ} (h : Exec (withMemory dev) p s a t) : Q a t.core :=
  hp.2 a _ ((withMemory_refines_anyDevice dev).exec p h)

theorem total_bind_of_meets {γ : Type} {p : Driver D E R α} {f : α → Driver D E R γ}
    {G : Config D E Unit → Config D E Unit → Prop} {Q : α → Config D E Unit → Prop}
    (h : Total (withMemory dev) p s) (hp : Meets anyDevice G p Q s.core)
    (hf : ∀ a (t : Config D E δ), Q a t.core → Total (withMemory dev) (f a) t) :
    Total (withMemory dev) (p >>= f) s :=
  (total_bind p f).mpr ⟨h, fun a t ht => hf a t (exec_of_meets hp ht)⟩

end Termination

section Guarantees

abbrev onDev (H : δ → δ → Prop) (s t : Config D E δ) : Prop := H s.dev t.dev

/-- No guarantee on the single accesses. -/
abbrev anyAccess : δ → δ → Prop := fun _ _ => True

instance : Std.Refl (anyAccess (δ := δ)) := ⟨fun _ => trivial⟩

variable {dev : Machine P R δ} {s : Config D E δ} {H : δ → δ → Prop} [Std.Refl H]

theorem meets_onDev_set (d : D) {Q : Unit → Config D E δ → Prop} :
    Meets (withMemory dev) (onDev H) (set d : Driver D E R Unit) Q s ↔ Q () (s.withMem d) := by
  rw [meets_set]
  exact ⟨fun h => h.2, fun h => ⟨fun _ => Std.Refl.refl s.dev, h⟩⟩

theorem meets_onDev_modify (f : D → D) {Q : Unit → Config D E δ → Prop} :
    Meets (withMemory dev) (onDev H) (modify f : Driver D E R Unit) Q s ↔
      Q () (s.withMem (f s.mem)) := by
  rw [Driver.modify, meets_bind, meets_get, meets_onDev_set]

theorem meets_onDev_note (e : E) {Q : Unit → Config D E δ → Prop} :
    Meets (withMemory dev) (onDev H) (note e : Driver D E R Unit) Q s ↔ Q () (s.noted e) := by
  rw [meets_note]
  exact ⟨fun h => h.2, fun h => ⟨Std.Refl.refl s.dev, h⟩⟩

theorem meets_onDev_port (p : P) {Q : R p → Config D E δ → Prop} :
    Meets (withMemory dev) (onDev H) (port p : Driver D E R (R p)) Q s ↔
      ∀ x e, dev s.dev p x e → H s.dev e ∧ Q x (s.withDev e) := by
  rw [meets_port]
  refine forall₃_congr fun x e _ => and_congr_left fun _ => ⟨fun h => ?_, fun h _ => h⟩
  by_cases hne : s = s.withDev e
  · have hdev : s.dev = e := congrArg Config.dev hne
    exact hdev ▸ Std.Refl.refl s.dev
  · exact h hne

/-- A judgement about the driver on this device, with one about it on every device. -/
theorem meets_with_core {p : Driver D E R α} {G : Config D E δ → Config D E δ → Prop}
    {Q : α → Config D E δ → Prop} {G' : Config D E Unit → Config D E Unit → Prop}
    {Q' : α → Config D E Unit → Prop} (h : Meets (withMemory dev) G p Q s)
    (h' : Meets anyDevice G' p Q' s.core) :
    Meets (withMemory dev) G p (fun a t => Q a t ∧ Q' a t.core) s :=
  ⟨h.1, fun a t ht => ⟨h.2 a t ht, exec_of_meets h' ht⟩⟩

end Guarantees

section Trace

variable {dev : Machine P R δ}

/-- Every operation extends the trace. -/
theorem withMemory_trace (s : Config D E δ) (o : MemOp D E P) (x : MemOp.Res D E R o)
    (t : Config D E δ) (h : withMemory dev s o x t) : s.trace <+: t.trace := by
  cases o with
  | get => rw [h.2]
  | set d =>
    rw [show t = _ from h]
    exact List.prefix_rfl
  | note e =>
    rw [show t = _ from h]
    exact List.prefix_append _ _
  | port p =>
    obtain ⟨e, -, rfl⟩ := h
    exact List.prefix_rfl

private theorem trace_of_reach {β : Type} {r : β × Config D E δ → β × Config D E δ → Prop}
    (hr : ∀ p q, r p q → p.2.trace <+: q.2.trace) {p q : β × Config D E δ}
    (h : Relation.ReflTransGen r p q) : p.2.trace <+: q.2.trace := by
  induction h with
  | refl => exact List.prefix_rfl
  | tail _ hstep ih => exact ih.trans (hr _ _ hstep)

theorem exec_trace {α : Type} (p : Driver D E R α) {s t : Config D E δ} {a : α}
    (h : Exec (withMemory dev) p s a t) : s.trace <+: t.trace := by
  induction p generalizing s t with
  | ret r => rw [h.2]
  | call o k ih =>
    obtain ⟨x, u, hx, hk⟩ := h
    exact (withMemory_trace s o x u hx).trans (ih x hk)
  | @loop α β γ body b k ihb ih =>
    obtain ⟨b', s', hr, c, u, hc, hk⟩ := h
    have hpre := trace_of_reach (fun p q hpq => ihb p.1 hpq) hr
    exact (hpre.trans (ihb b' hc)).trans (ih c hk)

/-- A judgement may be used with the trace extended. -/
theorem meets_trace {α : Type} {p : Driver D E R α} {s : Config D E Unit}
    {G : Config D E Unit → Config D E Unit → Prop} {Q : α → Config D E Unit → Prop}
    (h : Meets anyDevice G p Q s) :
    Meets anyDevice G p (fun a t => Q a t ∧ s.trace <+: t.trace) s :=
  ⟨h.1, fun a t ht => ⟨h.2 a t ht, exec_trace p ht⟩⟩

theorem steps_trace {α : Type} (p : Driver D E R α) {s u v : Config D E δ}
    (h : Steps (withMemory dev) p s u v) : s.trace <+: u.trace ∧ u.trace <+: v.trace := by
  induction p generalizing s with
  | ret r => exact h.elim
  | call o k ih =>
    obtain ⟨x, t, hx, ⟨rfl, rfl⟩ | hk⟩ := h
    · exact ⟨List.prefix_rfl, withMemory_trace u o x v hx⟩
    · exact ⟨(withMemory_trace s o x t hx).trans (ih x hk).1, (ih x hk).2⟩
  | @loop α β γ body b k ihb ih =>
    obtain ⟨b', s', hr, hk⟩ := h
    have hpre := trace_of_reach (fun p q hpq => exec_trace (body p.1) hpq) hr
    rcases hk with hk | ⟨c, t, hc, hk⟩
    · exact ⟨hpre.trans (ihb b' hk).1, (ihb b' hk).2⟩
    · exact ⟨(hpre.trans (exec_trace (body b') hc)).trans (ih c hk).1, (ih c hk).2⟩

/-- A judgement restricted to traces in a prefix-closed set is vacuous once the trace
has left the set. -/
theorem meets_of_not_trace {T : List E → Prop} (hT : ∀ l l', l <+: l' → T l' → T l)
    {G : Config D E δ → Config D E δ → Prop} (p : Driver D E R α)
    {Q : α → Config D E δ → Prop} {s : Config D E δ} (hs : ¬T s.trace) :
    Meets (withMemory dev) (fun u v => T v.trace → G u v) p (fun a t => T t.trace → Q a t) s := by
  constructor
  · intro u v h _ hv
    have hpre := steps_trace p h
    exact absurd (hT _ _ (hpre.1.trans hpre.2) hv) hs
  · intro a t h ht
    exact absurd (hT _ _ (exec_trace p h) ht) hs

end Trace

section History

/-- The history of the device only gets longer. -/
theorem exec_history {dev : Machine P R δ} {p : Driver D E R α} {s t : Config D E (δ × List P)}
    {a : α} (h : Exec (withMemory dev.logged) p s a t) : s.dev.2 <+: t.dev.2 := by
  refine exec_invariant (P := fun u => s.dev.2 <+: u.dev.2) List.prefix_rfl ?_ h
  intro u v huv hu
  obtain ⟨o, x, hx⟩ := steps_operation p huv
  refine hu.trans ?_
  cases o with
  | get => rw [hx.2]
  | set d => rw [show v = _ from hx, Config.withMem_dev]
  | note e => rw [show v = _ from hx, Config.noted_dev]
  | port p =>
    obtain ⟨e, he, rfl⟩ := hx
    rw [Config.withDev_dev, he.2]
    exact List.prefix_append _ _

end History

section Emits

/-- All events that a program records are in `ok`, and all its answers satisfy `K`. -/
def Emits (ok : E → Prop) : {α : Type} → Driver D E R α → (α → Prop) → Prop
  | _, .ret a, K => K a
  | _, .call o k, K => (∀ e, o = .note e → ok e) ∧ ∀ x, Emits ok (k x) K
  | _, .loop body _ k, K => (∀ b, Emits ok (body b) fun _ => True) ∧ ∀ c, Emits ok (k c) K

variable {ok : E → Prop}

@[simp] theorem emits_pure (a : α) {K : α → Prop} :
    Emits ok (pure a : Driver D E R α) K ↔ K a := Iff.rfl

@[simp] theorem emits_get {K : D → Prop} : Emits ok (get : Driver D E R D) K ↔ ∀ d, K d :=
  ⟨fun h => h.2, fun h => ⟨fun _ he => by simp at he, h⟩⟩

@[simp] theorem emits_set (d : D) {K : Unit → Prop} :
    Emits ok (set d : Driver D E R Unit) K ↔ K () :=
  ⟨fun h => h.2 (), fun h => ⟨fun _ he => by simp at he, fun _ => h⟩⟩

@[simp] theorem emits_port (p : P) {K : R p → Prop} :
    Emits ok (port p : Driver D E R (R p)) K ↔ ∀ x, K x :=
  ⟨fun h => h.2, fun h => ⟨fun _ he => by simp at he, h⟩⟩

@[simp] theorem emits_note (e : E) {K : Unit → Prop} :
    Emits ok (note e : Driver D E R Unit) K ↔ ok e ∧ K () := by
  refine ⟨fun h => ⟨h.1 e rfl, h.2 ()⟩, fun h => ⟨fun e' he => ?_, fun _ => h.2⟩⟩
  obtain rfl := MemOp.note.inj he
  exact h.1

@[simp] theorem emits_bind {γ : Type} (p : Driver D E R α) (f : α → Driver D E R γ)
    {K : γ → Prop} : Emits ok (p >>= f) K ↔ Emits ok p fun a => Emits ok (f a) K := by
  change Emits ok (p.bind f) K ↔ _
  induction p with
  | ret a => exact Iff.rfl
  | call o k ih => exact and_congr_right fun _ => forall_congr' fun x => ih x f
  | loop body b k _ ih => exact and_congr_right fun _ => forall_congr' fun c => ih c f

@[simp] theorem emits_modify (f : D → D) {K : Unit → Prop} :
    Emits ok (modify f : Driver D E R Unit) K ↔ D → K () := by
  simp [Driver.modify]

@[simp] theorem emits_ite (c : Prop) [Decidable c] {p q : Driver D E R α} {K : α → Prop} :
    Emits ok (if c then p else q) K ↔ (c → Emits ok p K) ∧ (¬c → Emits ok q K) := by
  by_cases h : c <;> simp [h]

@[simp] theorem emits_iterate {β γ : Type} {body : β → Driver D E R (β ⊕ γ)} (b : β)
    {K : γ → Prop} : Emits ok (iterate body b) K ↔
      (∀ b, Emits ok (body b) fun _ => True) ∧ ∀ c, K c := Iff.rfl

theorem Emits.mono {p : Driver D E R α} {K K' : α → Prop} (hp : Emits ok p K)
    (hK : ∀ a, K a → K' a) : Emits ok p K' := by
  induction p with
  | ret a => exact hK a hp
  | call o k ih => exact ⟨hp.1, fun x => ih x (hp.2 x) hK⟩
  | loop body b k _ ih => exact ⟨hp.1, fun c => ih c (hp.2 c) hK⟩

variable {dev : Machine P R δ}

/-- One atomic step of such a program records nothing, or an event in `ok`. -/
theorem emits_steps {p : Driver D E R α} {K : α → Prop} (hp : Emits ok p K)
    {s u v : Config D E δ} (h : Steps (withMemory dev) p s u v) :
    ∃ l, v.trace = u.trace ++ l ∧ ∀ e ∈ l, ok e := by
  induction p generalizing s with
  | ret a => exact h.elim
  | call o k ih =>
    obtain ⟨x, t, hx, ⟨rfl, rfl⟩ | hk⟩ := h
    · cases o with
      | get => exact ⟨[], by rw [hx.2, List.append_nil], by simp⟩
      | set d =>
        obtain rfl : v = u.withMem d := hx
        exact ⟨[], (List.append_nil _).symm, by simp⟩
      | note e =>
        obtain rfl : v = u.noted e := hx
        exact ⟨[e], rfl, by simpa using hp.1 e rfl⟩
      | port p =>
        obtain ⟨e, _, rfl⟩ := hx
        exact ⟨[], (List.append_nil _).symm, by simp⟩
    · exact ih x (hp.2 x) hk
  | loop body b k ihb ih =>
    obtain ⟨b', s', _, hk | ⟨c, t, _, hk⟩⟩ := h
    · exact ihb b' (hp.1 b') hk
    · exact ih c (hp.2 c) hk

/-- A run of such a program only adds events in `ok`. -/
theorem exec_emits {p : Driver D E R α} {K : α → Prop} (hp : Emits ok p K) {s t : Config D E δ}
    {a : α} (h : Exec (withMemory dev) p s a t) :
    ∃ l, t.trace = s.trace ++ l ∧ ∀ e ∈ l, ok e := by
  apply exec_invariant (P := fun u => ∃ l, u.trace = s.trace ++ l ∧ ∀ e ∈ l, ok e) _ _ h
  · exact ⟨[], (List.append_nil _).symm, by simp⟩
  · rintro u v huv ⟨l, hu, hl⟩
    obtain ⟨l', hv, hl'⟩ := emits_steps hp huv
    refine ⟨l ++ l', by rw [hv, hu, List.append_assoc], fun e he => ?_⟩
    exact (List.mem_append.mp he).elim (hl e) (hl' e)

/-- A program whose events are all in `ok` keeps the traces with events in `ok`. -/
theorem meets_of_emits {p : Driver D E R α} {K : α → Prop} (hp : Emits ok p K) {s : Config D E δ}
    (hs : ∀ e ∈ s.trace, ok e) :
    Meets (withMemory dev) (fun _ v => ∀ e ∈ v.trace, ok e) p (fun _ t => ∀ e ∈ t.trace, ok e) s := by
  refine meets_of_steps (P := fun u : Config D E δ => ∀ e ∈ u.trace, ok e) hs
    fun u v huv hu e he => ?_
  obtain ⟨l, hv, hl⟩ := emits_steps hp huv
  rw [hv] at he
  exact (List.mem_append.mp he).elim (hu e) (hl e)

end Emits

section Runner

/-- A device given by a function: a choice selects one of its behaviours. -/
def ofAnswer (answer : δ → χ → (p : P) → Option (R p × δ)) : Machine P R δ :=
  fun e p x e' => ∃ c, answer e c p = some (x, e')

/-- The driver on a device whose behaviours are selected by `choose`. -/
def onDevice (answer : δ → χ → (p : P) → Option (R p × δ)) (choose : δ → P → χ)
    (s : Config D E δ) :
    (o : MemOp D E P) → Option (MemOp.Res D E R o × Config D E δ)
  | .get => some (s.mem, s)
  | .set d => some ((), s.withMem d)
  | .note e => some ((), s.noted e)
  | .port p => (answer s.dev (choose s.dev p) p).map fun r => (r.1, s.withDev r.2)

theorem onDevice_refines (answer : δ → χ → (p : P) → Option (R p × δ)) (choose : δ → P → χ) :
    (answering (onDevice (D := D) (E := E) answer choose)).Refines
      (withMemory (ofAnswer answer)) id := by
  intro s o x t h
  cases o with
  | get =>
    obtain ⟨rfl, rfl⟩ := Prod.mk.inj (Option.some.inj h)
    exact ⟨rfl, rfl⟩
  | set d => exact (Prod.mk.inj (Option.some.inj h)).2.symm
  | note e => exact (Prod.mk.inj (Option.some.inj h)).2.symm
  | port p =>
    obtain ⟨⟨y, e⟩, hr, hxt⟩ := Option.map_eq_some_iff.mp h
    obtain ⟨rfl, rfl⟩ := Prod.mk.inj hxt
    exact ⟨e, ⟨choose s.dev p, hr⟩, rfl⟩

/-- The same function on a device that keeps the history of its accesses. -/
def answerLogged (answer : δ → χ → (p : P) → Option (R p × δ)) (d : δ × List P) (c : χ) (p : P) :
    Option (R p × (δ × List P)) :=
  (answer d.1 c p).map fun r => (r.1, (r.2, d.2 ++ [p]))

theorem answerLogged_refines (answer : δ → χ → (p : P) → Option (R p × δ)) :
    (ofAnswer (answerLogged answer)).Refines (ofAnswer answer).logged id := by
  rintro d p x e ⟨c, hc⟩
  obtain ⟨r, hr, hxe⟩ := Option.map_eq_some_iff.mp hc
  obtain ⟨rfl, rfl⟩ := Prod.mk.inj hxe
  exact ⟨⟨c, hr⟩, rfl⟩

end Runner
end PynqPrio.Programs
