import Mathlib.Order.Basic
import Mathlib.Control.Basic

/-!
# Readers that read back

A writer adds to its output, a reader moves a position over the output and may stop with an
error. A reader reads back what a writer has written if, wherever the writer began, it gets
from that place to the end of what was added, with a certain result. Writers in a row are read
back by readers in a row.
-/
namespace PynqPrio.Formats

variable {ε α β : Type}

/-- A position that moves, or an error. -/
abbrev Reader (ε : Type) := StateT ℕ (Except ε)

/-- From the position `p` the reader gives `a` and has come to `q`. -/
def Gives (r : Reader ε α) (p : ℕ) (a : α) (q : ℕ) : Prop := r.run p = .ok (a, q)

section Gives

variable {r : Reader ε α} {k : α → Reader ε β} {p q m : ℕ} {a : α} {b : β} {e : ε}

theorem gives_pure {b : α} : Gives (pure a : Reader ε α) p b q ↔ a = b ∧ p = q := by
  constructor
  · intro h
    have hpair := Except.ok.inj h
    exact ⟨congrArg Prod.fst hpair, congrArg Prod.snd hpair⟩
  · rintro ⟨rfl, rfl⟩
    rfl

theorem gives_bind : Gives (r >>= k) p b q ↔ ∃ a m, Gives r p a m ∧ Gives (k a) m b q := by
  constructor
  · intro h
    cases hr : r.run p with
    | error e =>
      rw [Gives, StateT.run_bind, hr] at h
      cases h
    | ok x =>
      refine ⟨x.1, x.2, hr, ?_⟩
      rw [Gives, StateT.run_bind, hr] at h
      exact h
  · rintro ⟨a, m, hr, hk⟩
    rw [Gives, StateT.run_bind, hr]
    exact hk

theorem Gives.bind (hr : Gives r p a m) (hk : Gives (k a) m b q) : Gives (r >>= k) p b q :=
  gives_bind.mpr ⟨a, m, hr, hk⟩

theorem gives_get {n : ℕ} : Gives (get : Reader ε ℕ) p n q ↔ p = n ∧ p = q := by
  constructor
  · intro h
    have hpair := Except.ok.inj h
    exact ⟨congrArg Prod.fst hpair, congrArg Prod.snd hpair⟩
  · rintro ⟨rfl, rfl⟩
    rfl

theorem gives_set {u : PUnit} : Gives (set m : Reader ε PUnit) p u q ↔ m = q := by
  constructor
  · exact fun h => congrArg Prod.snd (Except.ok.inj h)
  · rintro rfl
    rfl

theorem Gives.get_bind {k : ℕ → Reader ε β} (h : Gives (k p) p b q) : Gives (get >>= k) p b q :=
  (gives_get.mpr ⟨rfl, rfl⟩).bind h

theorem Gives.set_bind {k : PUnit → Reader ε β} (h : Gives (k ⟨⟩) m b q) :
    Gives (set m >>= k) p b q :=
  Gives.bind (a := ⟨⟩) (gives_set.mpr rfl) h

theorem gives_throw : ¬Gives (throw e : Reader ε α) p a q := nofun

variable {c : Prop} [Decidable c] {r' : Reader ε α}

theorem Gives.ite_pos (hc : c) (h : Gives r p a q) : Gives (if c then r else r') p a q := by
  rw [if_pos hc]
  exact h

theorem Gives.ite_neg (hc : ¬c) (h : Gives r' p a q) : Gives (if c then r else r') p a q := by
  rw [if_neg hc]
  exact h

end Gives

section Outcomes

variable {r : Reader ε α} {k : α → Reader ε β} {p : ℕ} {Q : α → ℕ → Prop} {E : ε → Prop}

/-- Whatever the reader gives meets `Q`, and whatever error it stops with meets `E`. -/
structure Ends (r : Reader ε α) (p : ℕ) (Q : α → ℕ → Prop) (E : ε → Prop) : Prop where
  gives : ∀ a q, Gives r p a q → Q a q
  stops : ∀ e, r.run p = .error e → E e

theorem ends_pure {a : α} (h : Q a p) : Ends (pure a : Reader ε α) p Q E := by
  constructor
  · intro b q hb
    obtain ⟨rfl, rfl⟩ := gives_pure.mp hb
    exact h
  · nofun

theorem ends_throw {e : ε} (h : E e) : Ends (throw e : Reader ε α) p Q E := by
  constructor
  · exact fun a q hb => absurd hb gives_throw
  · intro e' he
    exact Except.error.inj he ▸ h

theorem Ends.bind {Q' : β → ℕ → Prop} (hr : Ends r p Q E)
    (hk : ∀ a q, Q a q → Ends (k a) q Q' E) : Ends (r >>= k) p Q' E := by
  constructor
  · intro b q hb
    obtain ⟨a, m, ha, hb⟩ := gives_bind.mp hb
    exact (hk a m (hr.gives a m ha)).gives b q hb
  · intro e he
    cases hx : r.run p with
    | error e' =>
      rw [StateT.run_bind, hx] at he
      exact Except.error.inj he ▸ hr.stops e' hx
    | ok x =>
      rw [StateT.run_bind, hx] at he
      exact (hk x.1 x.2 (hr.gives x.1 x.2 hx)).stops e he

theorem Ends.get_bind {k : ℕ → Reader ε α} (h : Ends (k p) p Q E) : Ends (get >>= k) p Q E :=
  ⟨fun a q ha => h.gives a q ha, fun e he => h.stops e he⟩

theorem Ends.set_bind {m : ℕ} {k : PUnit → Reader ε α} (h : Ends (k ⟨⟩) m Q E) :
    Ends (set m >>= k) p Q E :=
  ⟨fun a q ha => h.gives a q ha, fun e he => h.stops e he⟩

theorem ends_set {m : ℕ} {Q : PUnit → ℕ → Prop} (h : Q ⟨⟩ m) :
    Ends (set m : Reader ε PUnit) p Q E := by
  constructor
  · intro u q hb
    obtain rfl := gives_set.mp hb
    exact h
  · nofun

theorem ends_ite {c : Prop} [Decidable c] {r' : Reader ε α} (h : c → Ends r p Q E)
    (h' : ¬c → Ends r' p Q E) : Ends (if c then r else r') p Q E := by
  split
  · next hc => exact h hc
  · next hc => exact h' hc

/-- The same of a result without a position. -/
structure Outcome (x : Except ε α) (Q : α → Prop) (E : ε → Prop) : Prop where
  ok : ∀ a, x = .ok a → Q a
  error : ∀ e, x = .error e → E e

theorem Ends.outcome (h : Ends r p Q E) : Outcome (r.run p) (fun x => Q x.1 x.2) E :=
  ⟨fun x hx => h.gives x.1 x.2 hx, h.stops⟩

variable {x : Except ε α} {f : α → Except ε β} {P : α → Prop}

theorem outcome_pure {a : α} (h : P a) : Outcome (pure a : Except ε α) P E :=
  ⟨fun _ ha => Except.ok.inj ha ▸ h, nofun⟩

theorem outcome_throw {e : ε} (h : E e) : Outcome (throw e : Except ε α) P E :=
  ⟨nofun, fun _ he => Except.error.inj he ▸ h⟩

theorem Outcome.bind {P' : β → Prop} (hx : Outcome x P E) (hf : ∀ a, P a → Outcome (f a) P' E) :
    Outcome (x >>= f) P' E := by
  cases x with
  | error e => exact ⟨nofun, fun e' he => Except.error.inj he ▸ hx.error e rfl⟩
  | ok a => exact hf a (hx.ok a rfl)

theorem outcome_ite {c : Prop} [Decidable c] {y : Except ε α} (h : c → Outcome x P E)
    (h' : ¬c → Outcome y P E) : Outcome (if c then x else y) P E := by
  split
  · next hc => exact h hc
  · next hc => exact h' hc

theorem Ends.imp {Q' : α → ℕ → Prop} (h : Ends r p Q E) (hQ : ∀ a q, Q a q → Q' a q) :
    Ends r p Q' E :=
  ⟨fun a q ha => hQ a q (h.gives a q ha), h.stops⟩

end Outcomes

section Writers

variable {ω : Type} [Preorder ω]

/-- What `f` adds to an output that becomes `out` at last is read back by `r`, with the
result `a`. The writer keeps `inv`. -/
structure ReadsBack (out : ω) (pos : ω → ℕ) (inv : ω → Prop) (f : ω → ω) (r : Reader ε α) (a : α) :
    Prop where
  grows : ∀ s, inv s → s ≤ f s
  keeps : ∀ s, inv s → inv (f s)
  reads : ∀ s, inv s → f s ≤ out → Gives r (pos s) a (pos (f s))

end Writers

section Loops

variable {ω σ : Type} {room : ω → ℕ → Prop} {pos : ω → ℕ} {loop : ℕ → σ → Reader ε β}
  {s s' s'' : ω} {a a' a'' : σ}

/-- What the loop gives from `s'` with `a'` it gives from `s` with `a`, and fuel that has room at
the one place leaves fuel that has room at the other. -/
def Continues (room : ω → ℕ → Prop) (pos : ω → ℕ) (loop : ℕ → σ → Reader ε β) (s : ω) (a : σ) (s' : ω)
    (a' : σ) : Prop :=
  ∀ n, room s n → ∃ n', room s' n' ∧ ∀ b q, Gives (loop n' a') (pos s') b q → Gives (loop n a) (pos s) b q

theorem continues_refl (s : ω) (a : σ) : Continues room pos loop s a s a :=
  fun n hn => ⟨n, hn, fun _ _ h => h⟩

theorem Continues.trans (h : Continues room pos loop s a s' a') (h' : Continues room pos loop s' a' s'' a'') :
    Continues room pos loop s a s'' a'' := by
  intro n hn
  obtain ⟨m, hm, hfirst⟩ := h n hn
  obtain ⟨k, hk, hsecond⟩ := h' m hm
  exact ⟨k, hk, fun b q hb => hfirst b q (hsecond b q hb)⟩

end Loops

end PynqPrio.Formats
