import Mathlib.Data.List.Basic
import Mathlib.Data.List.GetD
import Mathlib.Logic.Function.Basic

/-!
# Circular buffers

A buffer of `n` places with the place `head` of the next element to come and the place
`tail` of the next one to go. One place stays free, so that a full buffer and an empty one
differ. Seen from outside the buffer is a queue: `push` appends and `pop` removes the front.
-/
namespace PynqPrio.Programs

structure Circular (α : Type) where
  buf : ℕ → α
  head : ℕ
  tail : ℕ

namespace Circular

variable {α : Type} {n : ℕ} {r : Circular α} {a : α}

structure InRange (n : ℕ) (r : Circular α) : Prop where
  head : r.head < n
  tail : r.tail < n

def count (n : ℕ) (r : Circular α) : ℕ := (r.head + (n - r.tail)) % n

/-- The elements from the tail to the head. -/
def contents (n : ℕ) (r : Circular α) : List α :=
  (List.range (r.count n)).map fun i => r.buf ((r.tail + i) % n)

def push (n : ℕ) (a : α) (r : Circular α) : Circular α where
  buf := Function.update r.buf r.head a
  head := (r.head + 1) % n
  tail := r.tail

def pop (n : ℕ) (r : Circular α) : Circular α := { r with tail := (r.tail + 1) % n }

theorem InRange.push (h : r.InRange n) (a : α) : (r.push n a).InRange n where
  head := Nat.mod_lt _ (Nat.zero_lt_of_lt h.head)
  tail := h.tail

theorem InRange.pop (h : r.InRange n) : (r.pop n).InRange n where
  head := h.head
  tail := Nat.mod_lt _ (Nat.zero_lt_of_lt h.head)

/-- The number of elements, without and with a wrap of the head. -/
theorem count_cases (h : r.InRange n) :
    (r.tail ≤ r.head ∧ r.count n = r.head - r.tail) ∨
      (r.head < r.tail ∧ r.count n = r.head + n - r.tail) := by
  have hhead := h.head
  have htail := h.tail
  by_cases hle : r.tail ≤ r.head
  · have hsum : r.head + (n - r.tail) = r.head - r.tail + n := by omega
    left
    rw [count, hsum, Nat.add_mod_right, Nat.mod_eq_of_lt (by omega)]
    exact ⟨hle, rfl⟩
  · right
    rw [count, Nat.mod_eq_of_lt (by omega)]
    omega

theorem count_eq_zero (h : r.InRange n) : r.count n = 0 ↔ r.head = r.tail := by
  have htail := h.tail
  have hcases := count_cases h
  omega

/-- A wrap around the end of the buffer. -/
theorem succ_mod {i : ℕ} (h : i < n) : (i + 1) % n = if i + 1 = n then 0 else i + 1 := by
  split
  · rename_i heq
    rw [heq, Nat.mod_self]
  · exact Nat.mod_eq_of_lt (by omega)

theorem count_push (h : r.InRange n) (hroom : r.count n + 1 < n) :
    (r.push n a).count n = r.count n + 1 := by
  have hhead := h.head
  have htail := h.tail
  have hnext : (r.push n a).head = if r.head + 1 = n then 0 else r.head + 1 := succ_mod hhead
  have hsame : (r.push n a).tail = r.tail := rfl
  have hcases := count_cases h
  have hcases' := count_cases (h.push a)
  split at hnext <;> omega

theorem count_pop (h : r.InRange n) (hne : r.head ≠ r.tail) :
    (r.pop n).count n + 1 = r.count n := by
  have hhead := h.head
  have htail := h.tail
  have hnext : (r.pop n).tail = if r.tail + 1 = n then 0 else r.tail + 1 := succ_mod htail
  have hsame : (r.pop n).head = r.head := rfl
  have hcases := count_cases h
  have hcases' := count_cases h.pop
  split at hnext <;> omega

theorem contents_eq_nil (h : r.InRange n) : r.contents n = [] ↔ r.head = r.tail := by
  rw [contents, List.map_eq_nil_iff, List.range_eq_nil, count_eq_zero h]

/-- The place of the head comes after those of all elements. -/
theorem place_count (h : r.InRange n) : (r.tail + r.count n) % n = r.head := by
  have hhead := h.head
  have htail := h.tail
  obtain ⟨hle, hcount⟩ | ⟨hlt, hcount⟩ := count_cases h
  · have hsum : r.tail + r.count n = r.head := by omega
    rw [hsum, Nat.mod_eq_of_lt hhead]
  · have hsum : r.tail + r.count n = r.head + n := by omega
    rw [hsum, Nat.add_mod_right, Nat.mod_eq_of_lt hhead]

/-- No element is in the place of the head. -/
theorem place_ne_head (h : r.InRange n) {i : ℕ} (hi : i < r.count n) :
    (r.tail + i) % n ≠ r.head := by
  have hhead := h.head
  have htail := h.tail
  have hcases := count_cases h
  by_cases hwrap : r.tail + i < n
  · rw [Nat.mod_eq_of_lt hwrap]
    omega
  · have hsub : (r.tail + i) % n = r.tail + i - n := by
      rw [Nat.mod_eq_sub_mod (by omega), Nat.mod_eq_of_lt (by omega)]
    omega

/-- A push appends. -/
theorem contents_push (h : r.InRange n) (hroom : r.count n + 1 < n) :
    (r.push n a).contents n = r.contents n ++ [a] := by
  rw [contents, count_push h hroom, List.range_succ, List.map_append]
  have hold : (List.range (r.count n)).map
      (fun i => (r.push n a).buf (((r.push n a).tail + i) % n)) = r.contents n := by
    apply List.map_congr_left
    intro i hi
    exact Function.update_of_ne (place_ne_head h (List.mem_range.mp hi)) _ _
  have hnew : (r.push n a).buf (((r.push n a).tail + r.count n) % n) = a := by
    have hplace : ((r.push n a).tail + r.count n) % n = r.head := place_count h
    rw [hplace]
    exact Function.update_self ..
  rw [hold, List.map_singleton, hnew]

/-- A pop removes the front. -/
theorem contents_pop (h : r.InRange n) (hne : r.head ≠ r.tail) :
    r.contents n = r.buf r.tail :: (r.pop n).contents n := by
  rw [contents, ← count_pop h hne, List.range_succ_eq_map, List.map_cons, List.map_map]
  have hfront : (r.tail + 0) % n = r.tail := Nat.mod_eq_of_lt h.tail
  rw [hfront]
  congr 1
  apply List.map_congr_left
  intro i _
  have hplace : (r.tail + (i + 1)) % n = ((r.tail + 1) % n + i) % n := by
    rw [Nat.mod_add_mod]
    congr 1
    omega
  exact congrArg r.buf hplace

end Circular
end PynqPrio.Programs
