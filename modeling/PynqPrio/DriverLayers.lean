import PynqPrio.DriverMemory

/-!
# Layers of a driver

The operations of a program can themselves be programs over the operations of a lower
layer. A run of the lower program is a run of the upper one where each operation is
implemented faithfully, as long as the program keeps the condition under which it is.
-/
namespace PynqPrio.Programs
open Prog

section Through

variable {Op Op' : Type} {Res : Op → Type} {Res' : Op' → Type} {σ α β γ : Type}

namespace Prog

/-- Replace every operation by a program of the lower layer. -/
def through (h : (o : Op) → Prog Op' Res' (Res o)) : {α : Type} → Prog Op Res α → Prog Op' Res' α
  | _, .ret a => .ret a
  | _, .call o k => (h o).bind fun x => (k x).through h
  | _, .loop body b k => .loop (fun b => (body b).through h) b fun c => (k c).through h

theorem bind_assoc {α β γ : Type} (p : Prog Op Res α) (f : α → Prog Op Res β)
    (g : β → Prog Op Res γ) : (p.bind f).bind g = p.bind fun a => (f a).bind g := by
  induction p with
  | ret a => rfl
  | call o k ih => exact congrArg (Prog.call o) (funext fun x => ih x f)
  | loop body b k _ ih => exact congrArg (Prog.loop body b) (funext fun c => ih c f)

theorem through_bind (h : (o : Op) → Prog Op' Res' (Res o)) (p : Prog Op Res α)
    (f : α → Prog Op Res γ) :
    (p.bind f).through h = (p.through h).bind fun a => (f a).through h := by
  induction p with
  | ret a => rfl
  | call o k ih =>
    simp only [bind, through, ih]
    exact (bind_assoc _ _ _).symm
  | loop body b k _ ih => simp only [bind, through, ih]

theorem bind_ret (p : Prog Op Res α) : p.bind .ret = p := by
  induction p with
  | ret a => rfl
  | call o k ih => exact congrArg (Prog.call o) (funext ih)
  | loop body b k _ ih => exact congrArg (Prog.loop body b) (funext ih)

end Prog

variable {M : Machine Op Res σ} {N : Machine Op' Res' σ} {h : (o : Op) → Prog Op' Res' (Res o)}
  {J : σ → Prop} {s t : σ}

/-- If every operation is implemented faithfully where `J` holds, and every step of the
program keeps `J`, the lower program has the runs of the upper one. -/
theorem exec_through (hop : ∀ o s x t, J s → (Exec N (h o) s x t ↔ M s o x t))
    (p : Prog Op Res α) (hs : J s) (hJ : ∀ u v, Steps M p s u v → J u → J v) (a : α) :
    Exec N (p.through h) s a t ↔ Exec M p s a t := by
  induction p generalizing s t with
  | ret r => exact Iff.rfl
  | call o k ih =>
    simp only [through, exec_bind, Exec]
    refine exists₂_congr fun x u => ?_
    rw [hop o s x u hs]
    refine and_congr_right fun hx => ih x (hJ s u ⟨x, u, hx, .inl ⟨rfl, rfl⟩⟩ hs) ?_ a
    exact fun v w hvw => hJ v w ⟨x, u, hx, .inr hvw⟩
  | @loop α β γ body b k ihb ih =>
    have hkeep : ∀ q : β × σ, Relation.ReflTransGen
        (fun p q : β × σ => Exec M (body p.1) p.2 (.inl q.1) q.2) (b, s) q → J q.2 := by
      intro q hq
      induction hq with
      | refl => exact hs
      | tail hp hpq ih =>
        exact exec_invariant ih (fun v w hvw => hJ v w ⟨_, _, hp, .inl hvw⟩) hpq
    have hbody : ∀ q : β × σ, Relation.ReflTransGen
        (fun p q : β × σ => Exec M (body p.1) p.2 (.inl q.1) q.2) (b, s) q →
        ∀ r u, Exec N ((body q.1).through h) q.2 r u ↔ Exec M (body q.1) q.2 r u :=
      fun q hq r u => ihb q.1 (hkeep q hq) (fun v w hvw => hJ v w ⟨_, _, hq, .inl hvw⟩) r
    have hreach : ∀ q : β × σ, Relation.ReflTransGen
        (fun p q : β × σ => Exec N ((body p.1).through h) p.2 (.inl q.1) q.2) (b, s) q ↔
        Relation.ReflTransGen
          (fun p q : β × σ => Exec M (body p.1) p.2 (.inl q.1) q.2) (b, s) q := by
      intro q
      constructor
      · intro hq
        induction hq with
        | refl => exact .refl
        | tail _ hpq ih => exact ih.tail ((hbody _ ih _ _).mp hpq)
      · intro hq
        induction hq with
        | refl => exact .refl
        | tail hp hpq ih => exact ih.tail ((hbody _ hp _ _).mpr hpq)
    simp only [through, Exec]
    refine exists₂_congr fun b' s' => ?_
    rw [hreach]
    refine and_congr_right fun hq => exists₂_congr fun c u => ?_
    rw [hbody _ hq]
    refine and_congr_right fun hc => ih c ?_
      (fun v w hvw => hJ v w ⟨_, _, hq, .inr ⟨c, u, hc, hvw⟩⟩) a
    exact exec_invariant (hkeep _ hq) (fun v w hvw => hJ v w ⟨_, _, hq, .inl hvw⟩) hc

end Through

namespace Driver

variable {D E P P' δ α β γ : Type} {R : P → Type} {R' : P' → Type}

/-- Implement the ports of a driver by programs over other ports. -/
def lower (h : (p : P) → Driver D E R' (R p)) (q : Driver D E R α) : Driver D E R' α :=
  q.through fun
    | .get => get
    | .set d => set d
    | .note e => note e
    | .port p => h p

section Lower

variable (h : (p : P) → Driver D E R' (R p))

@[simp] theorem lower_pure (a : α) : lower h (pure a : Driver D E R α) = pure a := rfl

@[simp] theorem lower_bind (q : Driver D E R α) (f : α → Driver D E R γ) :
    lower h (q >>= f) = lower h q >>= fun a => lower h (f a) :=
  through_bind _ q f

@[simp] theorem lower_ite (c : Prop) [Decidable c] (p q : Driver D E R α) :
    lower h (if c then p else q) = if c then lower h p else lower h q :=
  apply_ite (lower h) c p q

@[simp] theorem lower_get : lower h (get : Driver D E R D) = get := rfl

@[simp] theorem lower_modify (f : D → D) :
    lower h (modify f : Driver D E R Unit) = modify f := rfl

@[simp] theorem lower_note (e : E) : lower h (note e : Driver D E R Unit) = note e := rfl

@[simp] theorem lower_port (p : P) : lower h (port p : Driver D E R (R p)) = h p :=
  bind_ret (h p)

end Lower

section Exec

variable {dev : Machine P R δ} {s t : Config D E δ}

@[simp] theorem exec_pure (a r : α) :
    Exec (withMemory dev) (pure a : Driver D E R α) s r t ↔ r = a ∧ t = s := Iff.rfl

@[simp] theorem exec_bind_iff (p : Driver D E R α) (f : α → Driver D E R γ) (r : γ) :
    Exec (withMemory dev) (p >>= f) s r t ↔
      ∃ a u, Exec (withMemory dev) p s a u ∧ Exec (withMemory dev) (f a) u r t :=
  Prog.exec_bind p f s t r

@[simp] theorem exec_ite (c : Prop) [Decidable c] (p q : Driver D E R α) (r : α) :
    Exec (withMemory dev) (if c then p else q) s r t ↔
      (c ∧ Exec (withMemory dev) p s r t) ∨ (¬c ∧ Exec (withMemory dev) q s r t) := by
  by_cases h : c <;> simp [h]

@[simp] theorem exec_get (d : D) :
    Exec (withMemory dev) (get : Driver D E R D) s d t ↔ d = s.mem ∧ t = s := by
  simp only [get, Exec, withMemory]
  constructor
  · rintro ⟨x, u, ⟨rfl, rfl⟩, rfl, rfl⟩
    exact ⟨rfl, rfl⟩
  · rintro ⟨rfl, rfl⟩
    exact ⟨_, _, ⟨rfl, rfl⟩, rfl, rfl⟩

theorem exec_get_bind (f : D → Driver D E R γ) (r : γ) :
    Exec (withMemory dev) (get >>= f) s r t ↔ Exec (withMemory dev) (f s.mem) s r t := by
  simp

@[simp] theorem exec_set (d : D) (r : Unit) :
    Exec (withMemory dev) (set d : Driver D E R Unit) s r t ↔ t = s.withMem d := by
  simp only [set, Exec, withMemory]
  constructor
  · rintro ⟨x, u, rfl, rfl, rfl⟩
    rfl
  · rintro rfl
    exact ⟨(), _, rfl, rfl, rfl⟩

@[simp] theorem exec_modify (f : D → D) (r : Unit) :
    Exec (withMemory dev) (modify f : Driver D E R Unit) s r t ↔ t = s.withMem (f s.mem) := by
  simp [modify]

@[simp] theorem exec_note (e : E) (r : Unit) :
    Exec (withMemory dev) (note e : Driver D E R Unit) s r t ↔ t = s.noted e := by
  simp only [note, Exec, withMemory]
  constructor
  · rintro ⟨x, u, rfl, rfl, rfl⟩
    rfl
  · rintro rfl
    exact ⟨(), _, rfl, rfl, rfl⟩

@[simp] theorem exec_onlyIf_modify (c : Prop) [Decidable c] (f : D → D) (r : Unit) :
    Exec (withMemory dev) (onlyIf c (modify f) : Driver D E R Unit) s r t ↔
      t = s.withMem (if c then f s.mem else s.mem) := by
  by_cases h : c
  · simp [onlyIf, h]
  · simp [onlyIf, h, Config.withMem]

@[simp] theorem exec_onlyIf_note (c : Prop) [Decidable c] (e : E) (r : Unit) :
    Exec (withMemory dev) (onlyIf c (note e) : Driver D E R Unit) s r t ↔
      t = { s with trace := s.trace ++ if c then [e] else [] } := by
  by_cases h : c
  · simp [onlyIf, h, Config.noted]
  · simp [onlyIf, h]

/-- A loop that only records events. -/
theorem exec_forM_note {ι : Type} (l : List ι) (f : ι → E) (r : Unit) :
    Exec (withMemory dev) (l.forM fun i => (note (f i) : Driver D E R Unit)) s r t ↔
      t = { s with trace := s.trace ++ l.map f } := by
  induction l generalizing s with
  | nil => simp [List.forM]
  | cons i l ih =>
    change Exec _ (note (f i) >>= fun _ => l.forM fun i => note (f i)) s r t ↔ _
    simp only [exec_bind_iff, exec_note, ih, List.map_cons]
    constructor
    · rintro ⟨_, _, rfl, rfl⟩
      simp [Config.noted]
    · rintro rfl
      exact ⟨(), _, rfl, by simp [Config.noted]⟩

@[simp] theorem exec_port (p : P) (x : R p) :
    Exec (withMemory dev) (port p : Driver D E R (R p)) s x t ↔
      ∃ e, dev s.dev p x e ∧ t = s.withDev e := by
  simp only [port, Exec, withMemory]
  constructor
  · rintro ⟨y, u, ⟨e, he, rfl⟩, rfl, rfl⟩
    exact ⟨e, he, rfl⟩
  · rintro ⟨e, he, rfl⟩
    exact ⟨x, _, ⟨e, he, rfl⟩, rfl, rfl⟩

end Exec

section Preserves

variable {κ : Type} {f : D → κ}

/-- A program that never changes what `f` reads off the memory `d` it starts with. -/
def PreservesFrom (f : D → κ) : {α : Type} → Driver D E R α → D → Prop
  | _, .ret _, _ => True
  | _, .call .get k, d => PreservesFrom f (k d) d
  | _, .call (.set d') k, d => f d' = f d ∧ PreservesFrom f (k ()) d'
  | _, .call (.note _) k, d => PreservesFrom f (k ()) d
  | _, .call (.port _) k, d => ∀ x, PreservesFrom f (k x) d
  | _, .loop body _ k, _ => (∀ b d, PreservesFrom f (body b) d) ∧ ∀ c d, PreservesFrom f (k c) d

/-- A program that never changes what `f` reads off the memory. -/
def Preserves (f : D → κ) (q : Driver D E R α) : Prop := ∀ d, PreservesFrom f q d

theorem preservesFrom_bind {q : Driver D E R α} {k : α → Driver D E R γ} {d : D}
    (hq : PreservesFrom f q d) (hk : ∀ a, Preserves f (k a)) : PreservesFrom f (q >>= k) d := by
  change PreservesFrom f (q.bind k) d
  induction q generalizing d with
  | ret a => exact hk a d
  | call o c ih =>
    cases o with
    | get => exact ih d hq hk
    | set d' => exact ⟨hq.1, ih () hq.2 hk⟩
    | note e => exact ih () hq hk
    | port p => exact fun x => ih x (hq x) hk
  | loop body b c _ ih => exact ⟨hq.1, fun r d => ih r (hq.2 r d) hk⟩

namespace Preserves

theorem pure (a : α) : Preserves f (pure a : Driver D E R α) := fun _ => trivial

theorem bind {q : Driver D E R α} {k : α → Driver D E R γ} (hq : Preserves f q)
    (hk : ∀ a, Preserves f (k a)) : Preserves f (q >>= k) :=
  fun d => preservesFrom_bind (hq d) hk

/-- After `get` only the memory that was read matters. -/
theorem get_bind {k : D → Driver D E R γ} (hk : ∀ d, PreservesFrom f (k d) d) :
    Preserves f (get >>= k) :=
  hk

theorem ite {c : Prop} [Decidable c] {p q : Driver D E R α} (hp : Preserves f p)
    (hq : Preserves f q) : Preserves f (if c then p else q) := by
  by_cases h : c <;> simpa [h]

theorem onlyIf {c : Prop} [Decidable c] {p : Driver D E R Unit} (hp : Preserves f p) :
    Preserves f (Driver.onlyIf c p) :=
  hp.ite (pure ())

theorem get : Preserves f (get : Driver D E R D) := fun _ => trivial

theorem note (e : E) : Preserves f (note e : Driver D E R Unit) := fun _ => trivial

theorem port (p : P) : Preserves f (port p : Driver D E R (R p)) := fun _ _ => trivial

theorem modify {g : D → D} (hg : ∀ d, f (g d) = f d) :
    Preserves f (modify g : Driver D E R Unit) := fun d => ⟨hg d, trivial⟩

theorem iterate {body : β → Driver D E R (β ⊕ γ)} {b : β} (hbody : ∀ b, Preserves f (body b)) :
    Preserves f (Prog.iterate body b) :=
  fun _ => ⟨hbody, fun _ _ => trivial⟩

theorem forM {ι : Type} (l : List ι) {k : ι → Driver D E R Unit} (hk : ∀ i, Preserves f (k i)) :
    Preserves f (l.forM k) := by
  induction l with
  | nil => exact .pure _
  | cons i l ih => exact .bind (hk i) fun _ => ih

/-- No atomic step of the program changes what is kept. -/
theorem steps {dev : Machine P R δ} {q : Driver D E R α} {s u v : Config D E δ}
    (hq : PreservesFrom f q s.mem) (h : Steps (withMemory dev) q s u v) : f v.mem = f u.mem := by
  induction q generalizing s with
  | ret r => exact h.elim
  | call o k ih =>
    obtain ⟨x, t, hx, hk⟩ := h
    cases o with
    | get =>
      obtain ⟨rfl, rfl⟩ := hx
      rcases hk with ⟨rfl, rfl⟩ | hk
      · rfl
      · exact ih _ hq hk
    | set d =>
      obtain rfl : t = s.withMem d := hx
      rcases hk with ⟨rfl, rfl⟩ | hk
      · exact hq.1
      · exact ih () hq.2 hk
    | note e =>
      obtain rfl : t = s.noted e := hx
      rcases hk with ⟨rfl, rfl⟩ | hk
      · rfl
      · exact ih () (s := s.noted e) hq hk
    | port p =>
      obtain ⟨e, _, rfl⟩ := hx
      rcases hk with ⟨rfl, rfl⟩ | hk
      · rfl
      · exact ih x (s := s.withDev e) (hq x) hk
  | loop body b k ihb ih =>
    obtain ⟨b', s', _, hk | ⟨c, t, _, hk⟩⟩ := h
    · exact ihb b' (hq.1 b' _) hk
    · exact ih c (hq.2 c _) hk

theorem exec {dev : Machine P R δ} {q : Driver D E R α} {s t : Config D E δ} {a : α}
    (hq : Preserves f q) (h : Exec (withMemory dev) q s a t) : f t.mem = f s.mem :=
  exec_invariant (P := fun u => f u.mem = f s.mem) rfl
    (fun _ _ huv hu => (steps (hq s.mem) huv).trans hu) h

end Preserves

end Preserves

section Leaves

variable {κ : Type} {f : D → κ} {ok : E → Prop}

/-- The program keeps what `f` reads off the memory, and only records events in `ok`. -/
structure Leaves (f : D → κ) (ok : E → Prop) (q : Driver D E R α) : Prop where
  preserves : Preserves f q
  emits : Emits ok q fun _ => True

namespace Leaves

theorem pure (a : α) : Leaves f ok (pure a : Driver D E R α) := ⟨.pure a, trivial⟩

theorem bind {q : Driver D E R α} {k : α → Driver D E R γ} (hq : Leaves f ok q)
    (hk : ∀ a, Leaves f ok (k a)) : Leaves f ok (q >>= k) :=
  ⟨.bind hq.preserves fun a => (hk a).preserves,
    (emits_bind q k).mpr (hq.emits.mono fun a _ => (hk a).emits)⟩

theorem ite {c : Prop} [Decidable c] {p q : Driver D E R α} (hp : Leaves f ok p)
    (hq : Leaves f ok q) : Leaves f ok (if c then p else q) := by
  by_cases h : c <;> simpa [h]

theorem onlyIf {c : Prop} [Decidable c] {p : Driver D E R Unit} (hp : Leaves f ok p) :
    Leaves f ok (Driver.onlyIf c p) :=
  hp.ite (pure ())

theorem get : Leaves f ok (get : Driver D E R D) := ⟨.get, emits_get.mpr fun _ => trivial⟩

theorem note {e : E} (he : ok e) : Leaves f ok (note e : Driver D E R Unit) :=
  ⟨.note e, (emits_note e).mpr ⟨he, trivial⟩⟩

theorem port (p : P) : Leaves f ok (port p : Driver D E R (R p)) :=
  ⟨.port p, (emits_port p).mpr fun _ => trivial⟩

theorem modify {g : D → D} (hg : ∀ d, f (g d) = f d) :
    Leaves f ok (modify g : Driver D E R Unit) :=
  ⟨.modify hg, (emits_modify g).mpr fun _ => trivial⟩

theorem exec {dev : Machine P R δ} {q : Driver D E R α} {s t : Config D E δ} {a : α}
    (hq : Leaves f ok q) (h : Exec (withMemory dev) q s a t) :
    f t.mem = f s.mem ∧ ∃ l, t.trace = s.trace ++ l ∧ ∀ e ∈ l, ok e :=
  ⟨hq.preserves.exec h, exec_emits hq.emits h⟩

end Leaves

end Leaves

/-- A driver that keeps `f` runs on the lower layer as on the upper one, wherever the
ports are implemented faithfully for the value `f` has. -/
theorem exec_lower {dev : Machine P R δ} {dev' : Machine P' R' δ}
    {h : (p : P) → Driver D E R' (R p)} {κ : Type} {f : D → κ} {v : κ}
    (hport : ∀ p (s : Config D E δ) x t, f s.mem = v →
      (Exec (withMemory dev') (h p) s x t ↔ ∃ e, dev s.dev p x e ∧ t = s.withDev e))
    {q : Driver D E R α} (hq : Preserves f q) {s t : Config D E δ} (hs : f s.mem = v) (a : α) :
    Exec (withMemory dev') (lower h q) s a t ↔ Exec (withMemory dev) q s a t := by
  refine exec_through (J := fun s => f s.mem = v) ?_ q hs ?_ a
  · intro o s x t hs
    cases o with
    | get => exact exec_get x
    | set d => exact exec_set d x
    | note e => exact exec_note e x
    | port p => exact hport p s x t hs
  · intro u w huw hu
    exact (Preserves.steps (hq s.mem) huw).trans hu

end Driver
end PynqPrio.Programs
