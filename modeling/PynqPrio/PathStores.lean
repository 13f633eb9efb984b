import Mathlib.Data.List.Basic
import Mathlib.Logic.Function.Basic
import Mathlib.Order.Basic

/-!
# Stores that are addressed by paths

A store has facts at the paths that exist in it: values by name, and labels. An edit makes or
erases a path or changes the facts at one; a later edit overrides an earlier one.
-/
namespace PynqPrio.Stores

structure Facts (N V L : Type*) where
  values : N → Option V
  labels : L → Prop

/-- The facts at the paths that exist. -/
abbrev Store (K N V L : Type*) := List K → Option (Facts N V L)

inductive Action (N V L : Type*)
  | make
  | erase
  | put (name : N) (value : Option V)
  | label (l : L)

structure Edit (K N V L : Type*) where
  path : List K
  action : Action N V L

variable {K N V L : Type*}

namespace Facts

def empty : Facts N V L := ⟨fun _ => none, fun _ => False⟩

@[ext] theorem ext' {f g : Facts N V L} (hvalues : ∀ n, f.values n = g.values n)
    (hlabels : ∀ l, f.labels l ↔ g.labels l) : f = g := by
  obtain ⟨fv, fl⟩ := f
  obtain ⟨gv, gl⟩ := g
  obtain rfl : fv = gv := funext hvalues
  obtain rfl : fl = gl := funext fun l => propext (hlabels l)
  rfl

variable [DecidableEq N]

def put (f : Facts N V L) (name : N) (value : Option V) : Facts N V L :=
  { f with values := Function.update f.values name value }

@[simp] theorem values_put_self (f : Facts N V L) (name : N) (value : Option V) :
    (f.put name value).values name = value := Function.update_self ..

theorem values_put_of_ne {n name : N} (h : n ≠ name) (f : Facts N V L) (value : Option V) :
    (f.put name value).values n = f.values n := Function.update_of_ne h ..

def label (f : Facts N V L) (l : L) : Facts N V L := { f with labels := fun l' => l' = l ∨ f.labels l' }

/-- All that `f` says is said by `g`. -/
def Le (f g : Facts N V L) : Prop :=
  (∀ n v, f.values n = some v → g.values n = some v) ∧ ∀ l, f.labels l → g.labels l

end Facts

namespace Store

def below (s : Store K N V L) (k : K) : Store K N V L := fun p => s (k :: p)

def value (s : Store K N V L) (p : List K) (n : N) : Option V := (s p).bind (·.values n)

def none : Store K N V L := fun _ => .none

/-- All that `s` says is said by `s'`. -/
def Le (s s' : Store K N V L) : Prop := ∀ p f, s p = some f → ∃ g, s' p = some g ∧ f.Le g

end Store

section Changes

variable [DecidableEq K]

/-- A change of a store takes place below a path. -/
def within : List K → (Store K N V L → Store K N V L) → Store K N V L → Store K N V L
  | [], f, s => f s
  | k :: p, f, s => fun
    | [] => s []
    | k' :: q => if k' = k then within p f (s.below k) q else s (k' :: q)

variable {f g : Store K N V L → Store K N V L} {s : Store K N V L} {k k' : K} {p q : List K}

@[simp] theorem within_nil : within [] f s = f s := rfl
@[simp] theorem within_cons_nil : within (k :: p) f s [] = s [] := rfl

theorem within_cons_cons : within (k :: p) f s (k' :: q) =
    if k' = k then within p f (s.below k) q else s (k' :: q) := rfl

theorem below_within_cons : (within (k :: p) f s).below k = within p f (s.below k) :=
  funext fun _ => if_pos rfl

theorem within_comp (p : List K) (s : Store K N V L) : within p g (within p f s) = within p (g ∘ f) s := by
  induction p generalizing s with
  | nil => rfl
  | cons k p ih =>
    funext q
    cases q with
    | nil => rfl
    | cons k' q =>
      by_cases hk : k' = k
      · rw [within_cons_cons, if_pos hk, below_within_cons, ih, within_cons_cons, if_pos hk]
      · simp only [within_cons_cons, if_neg hk]

theorem within_append (p q : List K) (s : Store K N V L) : within (p ++ q) f s = within p (within q f) s := by
  induction p generalizing s with
  | nil => rfl
  | cons k p ih =>
    funext r
    cases r with
    | nil => rfl
    | cons k' r => simp only [List.cons_append, within_cons_cons, ih]

theorem within_id (p : List K) (s : Store K N V L) : within p id s = s := by
  induction p generalizing s with
  | nil => rfl
  | cons k p ih =>
    funext q
    cases q with
    | nil => rfl
    | cons k' q =>
      rw [within_cons_cons, ih]
      split
      · next hk => rw [hk, Store.below]
      · rfl

/-- A change below a path leaves the rest as it is. -/
theorem within_of_not_prefix (h : ¬p <+: q) (s : Store K N V L) : within p f s q = s q := by
  induction p generalizing q s with
  | nil => exact absurd List.nil_prefix h
  | cons k p ih =>
    cases q with
    | nil => rfl
    | cons k' q =>
      rw [within_cons_cons]
      split
      · next hk =>
        subst hk
        exact ih (fun hpq => h (List.cons_prefix_cons.mpr ⟨rfl, hpq⟩)) (s.below k')
      · rfl

theorem within_append_right (p q : List K) (s : Store K N V L) :
    within p f s (p ++ q) = f (fun r => s (p ++ r)) q := by
  induction p generalizing s with
  | nil => rfl
  | cons k p ih => exact (if_pos rfl).trans (ih _)

/-- The store of a place with facts `f` and stores below it. -/
def Store.node (f : Facts N V L) (b : K → Store K N V L) : Store K N V L
  | [] => some f
  | k :: p => b k p

theorem within_node {f : Facts N V L} {b b' : K → Store K N V L} {k : K}
    {g : Store K N V L → Store K N V L} (hother : ∀ k' ≠ k, b' k' = b k') (hk : b' k = g (b k)) :
    Store.node f b' = within [k] g (Store.node f b) := by
  funext p
  cases p with
  | nil => rfl
  | cons k' p =>
    rw [within_cons_cons, Store.node]
    split
    · next h =>
      subst h
      exact congrFun hk p
    · next h => exact congrFun (hother k' h) p

end Changes

section Edits

variable [DecidableEq K] [DecidableEq N]

def Action.onFacts (a : Action N V L) (o : Option (Facts N V L)) : Option (Facts N V L) :=
  match a with
  | .make => some (o.getD .empty)
  | .erase => none
  | .put name value => o.map (·.put name value)
  | .label l => o.map (·.label l)

/-- What an action does at the root of a store. Only `erase` reaches below it. -/
def Action.on (a : Action N V L) (s : Store K N V L) : Store K N V L
  | [] => a.onFacts (s [])
  | k :: p => match a with
    | .erase => none
    | _ => s (k :: p)

def Edit.apply (e : Edit K N V L) (s : Store K N V L) : Store K N V L := within e.path e.action.on s

def applyAll (es : List (Edit K N V L)) (s : Store K N V L) : Store K N V L :=
  es.foldl (fun s e => e.apply s) s

/-- An edit of what is below a path. -/
def Edit.beneath (p : List K) (e : Edit K N V L) : Edit K N V L := { e with path := p ++ e.path }

variable {es fs : List (Edit K N V L)} {e : Edit K N V L} {s s' : Store K N V L} {p : List K} {n : N}

@[simp] theorem applyAll_nil : applyAll [] s = s := rfl
@[simp] theorem applyAll_cons : applyAll (e :: es) s = applyAll es (e.apply s) := rfl
theorem applyAll_append : applyAll (es ++ fs) s = applyAll fs (applyAll es s) := List.foldl_append

theorem apply_erase (p : List K) (s : Store K N V L) :
    Edit.apply ⟨p, .erase⟩ s = within p (fun _ => .none) s :=
  congrArg (within p · s) (funext fun _ => funext fun q => by cases q <;> rfl)

theorem applyAll_beneath (p : List K) (es : List (Edit K N V L)) (s : Store K N V L) :
    applyAll (es.map (.beneath p)) s = within p (applyAll es) s := by
  induction es generalizing s with
  | nil => exact (within_id p s).symm
  | cons e es ih =>
    have hcons : applyAll (e :: es) = applyAll es ∘ Edit.apply e := rfl
    rw [List.map_cons, applyAll_cons, ih, hcons, ← within_comp]
    exact congrArg _ (within_append p e.path s)

/-- Actions at a place that say something about it. -/
theorem applyAll_node {acts : List (Action N V L)} (h : ∀ a ∈ acts, a ≠ .erase) (f : Facts N V L)
    (b : K → Store K N V L) {g : Facts N V L} (hg : acts.foldl (fun o a => a.onFacts o) (some f) = some g) :
    applyAll (acts.map (Edit.mk [])) (.node f b) = .node g b := by
  induction acts generalizing f with
  | nil =>
    obtain rfl := Option.some.inj hg
    rfl
  | cons a acts ih =>
    have ha := h a List.mem_cons_self
    have hstep : ∃ f', a.onFacts (some f) = some f' ∧
        Edit.apply (Edit.mk [] a) (Store.node f b) = Store.node f' b := by
      cases a with
      | erase => exact absurd rfl ha
      | _ => exact ⟨_, rfl, funext fun p => by cases p <;> rfl⟩
    obtain ⟨f', hf', hnode⟩ := hstep
    rw [List.foldl_cons, hf'] at hg
    rw [List.map_cons, applyAll_cons, hnode, ih (fun a ha => h a (List.mem_cons_of_mem _ ha)) f' hg]

end Edits

section Order

variable {s s' : Store K N V L} {p : List K} {n : N}

theorem none_le (s : Store K N V L) : Store.Le .none s := fun _ _ h => by cases h

theorem value_of_le (h : s.Le s') {v : V} (hv : s.value p n = some v) : s'.value p n = some v := by
  obtain ⟨f, hf, hfv⟩ := Option.bind_eq_some_iff.mp hv
  obtain ⟨g, hg, hle⟩ := h p f hf
  rw [Store.value, hg]
  exact hle.1 n v hfv

theorem le_within [DecidableEq K] {f : Store K N V L → Store K N V L} (hf : ∀ s s', Store.Le s s' → (f s).Le (f s'))
    (p : List K) (h : s.Le s') : (within p f s).Le (within p f s') := by
  induction p generalizing s s' with
  | nil => exact hf s s' h
  | cons k p ih =>
    intro q
    cases q with
    | nil => exact h []
    | cons k' q =>
      rw [within_cons_cons, within_cons_cons]
      split
      · exact ih (fun r => h (k :: r)) q
      · exact h (k' :: q)

end Order

section Overriding

variable [DecidableEq K] [DecidableEq N]
variable {es fs : List (Edit K N V L)} {e : Edit K N V L} {s s' : Store K N V L} {p : List K} {n : N}

theorem le_onFacts (a : Action N V L) {o o' : Option (Facts N V L)}
    (h : ∀ f, o = some f → ∃ g, o' = some g ∧ f.Le g) (f : Facts N V L) (hf : a.onFacts o = some f) :
    ∃ g, a.onFacts o' = some g ∧ f.Le g := by
  cases a with
  | make =>
    refine ⟨_, rfl, ?_⟩
    cases o with
    | none =>
      obtain rfl := Option.some.inj hf
      exact ⟨fun _ _ hv => absurd hv (by simp [Facts.empty]), fun _ hl => absurd hl not_false⟩
    | some f' =>
      obtain rfl := Option.some.inj hf
      obtain ⟨g, rfl, hle⟩ := h _ rfl
      exact hle
  | erase => cases hf
  | put name value =>
    obtain ⟨f', rfl, rfl⟩ := Option.map_eq_some_iff.mp hf
    obtain ⟨g, rfl, hvalues, hlabels⟩ := h f' rfl
    refine ⟨_, rfl, fun n v hv => ?_, hlabels⟩
    by_cases hn : n = name
    · subst hn
      rw [Facts.values_put_self] at hv ⊢
      exact hv
    · rw [Facts.values_put_of_ne hn] at hv ⊢
      exact hvalues n v hv
  | label l =>
    obtain ⟨f', rfl, rfl⟩ := Option.map_eq_some_iff.mp hf
    obtain ⟨g, rfl, hvalues, hlabels⟩ := h f' rfl
    exact ⟨_, rfl, hvalues, fun l' => Or.imp_right (hlabels l')⟩

theorem le_apply (e : Edit K N V L) (h : s.Le s') : (e.apply s).Le (e.apply s') := by
  refine le_within (fun s s' h q => ?_) e.path h
  cases q with
  | nil => exact le_onFacts e.action (h [])
  | cons k q =>
    obtain ⟨path, action⟩ := e
    cases action with
    | erase => exact fun _ hf => by cases hf
    | _ => exact h (k :: q)

theorem le_applyAll (es : List (Edit K N V L)) (h : s.Le s') : (applyAll es s).Le (applyAll es s') := by
  induction es generalizing s s' with
  | nil => exact h
  | cons e es ih => exact ih (le_apply e h)

/-- What edits say by themselves, they say whatever they are applied to. -/
theorem value_applyAll_of_none {v : V} (h : (applyAll es .none).value p n = some v) :
    (applyAll es s).value p n = some v := value_of_le (le_applyAll es (none_le s)) h

/-- The edits that a value at a path depends on. -/
def Edit.Touches (e : Edit K N V L) (p : List K) (n : N) : Prop :=
  match e.action with
  | .erase => e.path <+: p
  | .put name _ => e.path = p ∧ name = n
  | _ => False

theorem value_apply_of_not_touches (h : ¬e.Touches p n) : (e.apply s).value p n = s.value p n := by
  obtain ⟨path, action⟩ := e
  by_cases hp : path <+: p
  · obtain ⟨q, rfl⟩ := hp
    rw [Store.value, Edit.apply, within_append_right]
    cases q with
    | nil =>
      rw [Store.value, List.append_nil, Action.on]
      dsimp only
      rw [List.append_nil]
      cases action with
      | make => cases s path <;> rfl
      | erase => exact absurd (List.prefix_append path []) h
      | put name value =>
        have hn : n ≠ name := fun hn => h ⟨(List.append_nil path).symm, hn.symm⟩
        cases s path with
        | none => rfl
        | some f => exact Facts.values_put_of_ne hn f value
      | label l => cases s path <;> rfl
    | cons k q =>
      cases action with
      | erase => exact absurd (List.prefix_append path (k :: q)) h
      | _ => rfl
  · rw [Store.value, Edit.apply, within_of_not_prefix hp, Store.value]

/-- A value lasts until an edit touches it. -/
theorem value_applyAll_of_not_touches (h : ∀ e ∈ es, ¬e.Touches p n) :
    (applyAll es s).value p n = s.value p n := by
  induction es generalizing s with
  | nil => rfl
  | cons e es ih =>
    rw [applyAll_cons, ih fun e' he' => h e' (List.mem_cons_of_mem e he'),
      value_apply_of_not_touches (h e List.mem_cons_self)]

end Overriding

end PynqPrio.Stores
