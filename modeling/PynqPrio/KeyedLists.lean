import Mathlib.Data.List.Nodup

/-!
# Lists of marked entries with keys

An entry that is removed stays in its list with a mark. At most one entry has a key, and the
live entry of a key is that one as long as it is not marked.
-/
namespace PynqPrio.Stores

variable {α κ : Type*}

/-- Change the first entry that satisfies `q`, if there is one. -/
def updateFirst (q : α → Bool) (f : α → α) : List α → Option (List α)
  | [] => none
  | a :: l => if q a then some (f a :: l) else (updateFirst q f l).map (a :: ·)

theorem updateFirst_eq_none {q : α → Bool} {f : α → α} {l : List α} :
    updateFirst q f l = none ↔ ∀ a ∈ l, q a = false := by
  induction l with
  | nil => simp [updateFirst]
  | cons a l ih =>
    rw [updateFirst, List.forall_mem_cons]
    cases hq : q a with
    | true => simp
    | false => simp [ih]

theorem updateFirst_eq_some {q : α → Bool} {f : α → α} {l l' : List α} (h : updateFirst q f l = some l') :
    ∃ pre a post, l = pre ++ a :: post ∧ q a = true ∧ l' = pre ++ f a :: post := by
  induction l generalizing l' with
  | nil => cases h
  | cons a l ih =>
    rw [updateFirst] at h
    split at h
    · next hq => exact ⟨[], a, l, rfl, hq, (Option.some.inj h).symm⟩
    · obtain ⟨l₁, hl₁, rfl⟩ := Option.map_eq_some_iff.mp h
      obtain ⟨pre, b, post, rfl, hq, rfl⟩ := ih hl₁
      exact ⟨a :: pre, b, post, rfl, hq, rfl⟩

section Live

variable [DecidableEq κ] (key : α → κ) (alive : α → Bool)

/-- The live entry of a key. -/
def live (k : κ) (l : List α) : Option α := l.find? fun a => alive a && key a = k

variable {key alive} {k : κ} {a : α} {l l' : List α}

theorem live_eq_some (h : live key alive k l = some a) : a ∈ l ∧ alive a = true ∧ key a = k := by
  have hq := List.find?_some h
  rw [Bool.and_eq_true, decide_eq_true_iff] at hq
  exact ⟨List.mem_of_find?_eq_some h, hq⟩

theorem live_eq_none (h : ∀ a ∈ l, key a ≠ k) : live key alive k l = none := by
  refine List.find?_eq_none.mpr fun a ha hq => h a ha ?_
  rw [Bool.and_eq_true, decide_eq_true_iff] at hq
  exact hq.2

theorem live_eq_none_of_dead (h : ∀ a ∈ l, alive a = false) : live key alive k l = none := by
  refine List.find?_eq_none.mpr fun a ha hq => ?_
  rw [h a ha] at hq
  exact Bool.false_ne_true hq

theorem live_append_cons_self {pre post : List α} (hpre : ∀ b ∈ pre, key b ≠ key a)
    (hpost : ∀ b ∈ post, key b ≠ key a) :
    live key alive (key a) (pre ++ a :: post) = if alive a then some a else none := by
  rw [live, List.find?_append, ← live, live_eq_none hpre, Option.none_or, List.find?_cons]
  cases halive : alive a with
  | true => simp
  | false => exact live_eq_none hpost

theorem live_append_cons_of_ne {pre post : List α} (h : key a ≠ k) :
    live key alive k (pre ++ a :: post) = live key alive k (pre ++ post) := by
  rw [live, live, List.find?_append, List.find?_append, List.find?_cons]
  simp [h]

variable (alive) in
theorem live_concat (hl : ∀ b ∈ l, key b ≠ key a) (k : κ) : live key alive k (l ++ [a]) =
    if k = key a then if alive a then some a else none else live key alive k l := by
  split
  · next h =>
    subst h
    exact live_append_cons_self hl fun b hb => absurd hb List.not_mem_nil
  · next h => rw [live_append_cons_of_ne (Ne.symm h), List.append_nil]

theorem live_of_mem (hnodup : (l.map key).Nodup) (ha : a ∈ l) (halive : alive a = true) :
    live key alive (key a) l = some a := by
  obtain ⟨pre, post, rfl⟩ := List.append_of_mem ha
  rw [List.map_append, List.map_cons, List.nodup_append'] at hnodup
  obtain ⟨-, hpost, hdisjoint⟩ := hnodup
  refine (live_append_cons_self (fun b hb hkey => ?_) fun b hb hkey => ?_).trans (if_pos halive)
  · exact hdisjoint (List.mem_map_of_mem hb) (hkey ▸ List.mem_cons_self)
  · exact (List.nodup_cons.mp hpost).1 (hkey ▸ List.mem_map_of_mem hb)

variable (alive) in
/-- The entry of a key is changed, and no other. -/
theorem live_replace {b : α} {pre post : List α} (hnodup : ((pre ++ a :: post).map key).Nodup)
    (hkey : key b = key a) :
    live key alive (key a) (pre ++ a :: post) = (if alive a then some a else none) ∧
      ∀ k, live key alive k (pre ++ b :: post) =
        if k = key a then if alive b then some b else none else live key alive k (pre ++ a :: post) := by
  rw [List.map_append, List.map_cons, List.nodup_append'] at hnodup
  obtain ⟨-, hnodup, hdisjoint⟩ := hnodup
  have hpre : ∀ c ∈ pre, key c ≠ key a := fun c hc heq =>
    hdisjoint (List.mem_map_of_mem hc) (heq ▸ List.mem_cons_self)
  have hpost : ∀ c ∈ post, key c ≠ key a := fun c hc heq =>
    (List.nodup_cons.mp hnodup).1 (heq ▸ List.mem_map_of_mem hc)
  refine ⟨live_append_cons_self hpre hpost, fun k => ?_⟩
  split
  · next hk =>
    subst hk
    rw [← hkey] at hpre hpost ⊢
    exact live_append_cons_self hpre hpost
  · next hk => rw [live_append_cons_of_ne (Ne.symm hk), live_append_cons_of_ne (hkey ▸ Ne.symm hk)]

end Live

end PynqPrio.Stores
