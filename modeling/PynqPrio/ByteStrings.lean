import Mathlib

/-!
# Byte strings

Numbers as bytes with the most significant one first, what stands where in a buffer, places
that are a multiple of an alignment, and strings that end with a zero byte.
-/
namespace PynqPrio.Formats

abbrev Byte := BitVec 8

section Numbers

/-- A number in `n` bytes, the most significant one first. -/
def toBytes : ℕ → ℕ → List Byte
  | 0, _ => []
  | n + 1, v => toBytes n (v / 256) ++ [BitVec.ofNat 8 v]

/-- The number that a string of bytes stands for. -/
def ofBytes (bs : List Byte) : ℕ := bs.foldl (fun n b => 256 * n + b.toNat) 0

@[simp] theorem length_toBytes (n v : ℕ) : (toBytes n v).length = n := by
  induction n generalizing v with
  | zero => rfl
  | succ n ih => simp [toBytes, ih]

theorem ofBytes_concat (bs : List Byte) (b : Byte) :
    ofBytes (bs ++ [b]) = 256 * ofBytes bs + b.toNat := by
  simp [ofBytes]

theorem ofBytes_toBytes (n v : ℕ) : ofBytes (toBytes n v) = v % 256 ^ n := by
  induction n generalizing v with
  | zero => simp [toBytes, ofBytes, Nat.mod_one]
  | succ n ih =>
    have hlow : (BitVec.ofNat 8 v).toNat = v % 256 := BitVec.toNat_ofNat v 8
    have hsplit : v % 256 ^ (n + 1) = v % 256 + 256 * (v / 256 % 256 ^ n) := by
      rw [Nat.pow_succ, Nat.mul_comm (256 ^ n) 256, Nat.mod_mul]
    rw [toBytes, ofBytes_concat, ih, hlow, hsplit, Nat.add_comm]

theorem ofBytes_toBytes_of_lt {n v : ℕ} (h : v < 256 ^ n) : ofBytes (toBytes n v) = v := by
  rw [ofBytes_toBytes, Nat.mod_eq_of_lt h]

theorem ofBytes_lt (bs : List Byte) : ofBytes bs < 256 ^ bs.length := by
  induction bs using List.reverseRecOn with
  | nil => simp [ofBytes]
  | append_singleton bs b ih =>
    have hb : b.toNat < 256 := b.isLt
    rw [ofBytes_concat, List.length_append, List.length_singleton, pow_succ]
    omega

theorem toBytes_ofBytes (bs : List Byte) : toBytes bs.length (ofBytes bs) = bs := by
  induction bs using List.reverseRecOn with
  | nil => rfl
  | append_singleton bs b ih =>
    have hb : b.toNat < 256 := b.isLt
    have hdiv : (256 * ofBytes bs + b.toNat) / 256 = ofBytes bs := by omega
    have hlow : BitVec.ofNat 8 (256 * ofBytes bs + b.toNat) = b := by
      apply BitVec.eq_of_toNat_eq
      rw [BitVec.toNat_ofNat]
      omega
    rw [List.length_append, List.length_singleton, toBytes, ofBytes_concat, hdiv, ih, hlow]

end Numbers

section Places

variable {α : Type*} {buf : List α} {off n : ℕ} {xs ys : List α} {x : α}

/-- The elements `xs` stand in the buffer from `off` on. -/
def HasAt (buf : List α) (off : ℕ) (xs : List α) : Prop :=
  ∃ pre post, pre.length = off ∧ buf = pre ++ (xs ++ post)

/-- The `n` elements from `off` on. -/
def slice (buf : List α) (off n : ℕ) : List α := (buf.drop off).take n

theorem HasAt.le (h : HasAt buf off xs) : off + xs.length ≤ buf.length := by
  obtain ⟨pre, post, rfl, rfl⟩ := h
  simp only [List.length_append]
  omega

theorem hasAt_zero_self (xs : List α) : HasAt xs 0 xs := ⟨[], [], rfl, by simp⟩

theorem hasAt_nil (h : off ≤ buf.length) : HasAt buf off [] :=
  ⟨buf.take off, buf.drop off, by rw [List.length_take, Nat.min_eq_left h], by simp⟩

theorem hasAt_replicate {m : ℕ} (h : off + n ≤ m) : HasAt (List.replicate m x) off (List.replicate n x) := by
  refine ⟨List.replicate off x, List.replicate (m - off - n) x, List.length_replicate, ?_⟩
  rw [← List.replicate_add, ← List.replicate_add]
  exact congrArg (List.replicate · x) (by omega)

theorem hasAt_append : HasAt buf off (xs ++ ys) ↔ HasAt buf off xs ∧ HasAt buf (off + xs.length) ys := by
  constructor
  · rintro ⟨pre, post, rfl, rfl⟩
    exact ⟨⟨pre, ys ++ post, rfl, by simp⟩, ⟨pre ++ xs, post, by simp, by simp⟩⟩
  · rintro ⟨⟨pre, post, rfl, rfl⟩, ⟨pre', post', hlen, heq⟩⟩
    rw [← List.append_assoc] at heq
    obtain ⟨rfl, rfl⟩ := List.append_inj heq (by simpa using hlen.symm)
    exact ⟨pre, post', rfl, by simp⟩

theorem HasAt.left (h : HasAt buf off (xs ++ ys)) : HasAt buf off xs := (hasAt_append.mp h).1

theorem HasAt.right (h : HasAt buf off (xs ++ ys)) : HasAt buf (off + xs.length) ys :=
  (hasAt_append.mp h).2

theorem HasAt.tail (h : HasAt buf off (x :: xs)) : HasAt buf (off + 1) xs := by
  obtain ⟨pre, post, rfl, rfl⟩ := h
  exact ⟨pre ++ [x], post, by simp, by simp⟩

theorem HasAt.of_prefix (h : HasAt buf off ys) (hpre : xs <+: ys) : HasAt buf off xs := by
  obtain ⟨zs, rfl⟩ := hpre
  exact h.left

/-- What stands in a part of the buffer stands in the buffer. -/
theorem HasAt.trans {i : ℕ} (h : HasAt buf off xs) (h' : HasAt xs i ys) :
    HasAt buf (off + i) ys := by
  obtain ⟨pre, post, rfl, rfl⟩ := h'
  exact (h.right).left

theorem HasAt.slice_eq (h : HasAt buf off xs) : slice buf off xs.length = xs := by
  obtain ⟨pre, post, rfl, rfl⟩ := h
  simp [slice]

theorem HasAt.slice (h : HasAt buf off xs) (hn : xs.length = n) : slice buf off n = xs :=
  hn ▸ h.slice_eq

theorem slice_take {m : ℕ} (h : off + n ≤ m) : slice (buf.take m) off n = slice buf off n := by
  rw [Formats.slice, Formats.slice, List.drop_take, List.take_take, Nat.min_eq_left (by omega)]

theorem length_slice (h : off + n ≤ buf.length) : (slice buf off n).length = n := by
  rw [Formats.slice, List.length_take, List.length_drop]
  omega

theorem hasAt_slice (h : off + n ≤ buf.length) : HasAt buf off (slice buf off n) := by
  refine ⟨buf.take off, buf.drop (off + n), ?_, ?_⟩
  · rw [List.length_take]
    omega
  · rw [Formats.slice, ← List.drop_drop, List.take_append_drop, List.take_append_drop]

theorem HasAt.getElem? (h : HasAt buf off (x :: xs)) : buf[off]? = some x := by
  obtain ⟨pre, post, rfl, rfl⟩ := h
  simp

theorem HasAt.append (h : HasAt buf off xs) (ys : List α) : HasAt (buf ++ ys) off xs := by
  obtain ⟨pre, post, rfl, rfl⟩ := h
  exact ⟨pre, post ++ ys, rfl, by simp⟩

theorem HasAt.take (h : HasAt buf off xs) (hn : off + xs.length ≤ n) : HasAt (buf.take n) off xs := by
  obtain ⟨pre, post, rfl, rfl⟩ := h
  have hpre : (pre ++ (xs ++ post)).take n =
      pre ++ (xs ++ post.take (n - pre.length - xs.length)) := by
    rw [List.take_append, List.take_of_length_le (by omega : pre.length ≤ n), List.take_append,
      List.take_of_length_le (by omega : xs.length ≤ n - pre.length)]
  exact ⟨pre, _, rfl, hpre⟩

/-- The buffer with `xs` in the place of what stood from `off` on. -/
def overwrite (buf : List α) (off : ℕ) (xs : List α) : List α :=
  buf.take off ++ (xs ++ buf.drop (off + xs.length))

theorem length_overwrite (h : off + xs.length ≤ buf.length) : (overwrite buf off xs).length = buf.length := by
  simp only [overwrite, List.length_append, List.length_take, List.length_drop]
  omega

theorem le_length_overwrite (buf : List α) (off : ℕ) (xs : List α) :
    buf.length ≤ (overwrite buf off xs).length := by
  simp only [overwrite, List.length_append, List.length_take, List.length_drop]
  omega

theorem hasAt_overwrite (h : off ≤ buf.length) : HasAt (overwrite buf off xs) off xs :=
  ⟨buf.take off, _, by rw [List.length_take, Nat.min_eq_left h], rfl⟩

/-- What stands in front of the place or behind it stays. -/
theorem getElem?_overwrite {j : ℕ} (h : off + xs.length ≤ buf.length) (hj : j < off ∨ off + xs.length ≤ j) :
    (overwrite buf off xs)[j]? = buf[j]? := by
  rw [overwrite]
  obtain hj | hj := hj
  · have htake : j < (buf.take off).length := by
      rw [List.length_take]
      omega
    rw [List.getElem?_append_left htake, List.getElem?_take_of_lt hj]
  · have htake : (buf.take off ++ xs).length = off + xs.length := by
      rw [List.length_append, List.length_take]
      omega
    rw [← List.append_assoc, List.getElem?_append_right (htake ▸ hj), htake, List.getElem?_drop, Nat.add_sub_cancel' hj]

theorem HasAt.overwrite {p : ℕ} (h : HasAt buf p ys) (hp : p + ys.length ≤ off ∨ off + xs.length ≤ p) :
    HasAt (overwrite buf off xs) p ys := by
  obtain hp | hp := hp
  · exact (h.take hp).append _
  · obtain ⟨pre, post, rfl, rfl⟩ := h
    refine ⟨(pre ++ (ys ++ post)).take off ++ (xs ++ pre.drop (off + xs.length)), post, ?_, ?_⟩
    · simp only [List.length_append, List.length_take, List.length_drop]
      omega
    · rw [Formats.overwrite, List.drop_append_of_le_length hp]
      simp only [List.append_assoc]

/-- What stands at one place is determined by its length. -/
theorem HasAt.unique (h : HasAt buf off xs) (h' : HasAt buf off ys) (hlen : xs.length = ys.length) :
    xs = ys := h.slice_eq.symm.trans (hlen ▸ h'.slice_eq)

end Places

section Alignment

variable {x a : ℕ}

/-- The next multiple of `a`. -/
def align (x a : ℕ) : ℕ := (x + a - 1) / a * a

theorem dvd_align (x a : ℕ) : a ∣ align x a := Nat.dvd_mul_left _ _

theorem align_of_dvd (ha : 0 < a) (h : a ∣ x) : align x a = x := by
  obtain ⟨k, rfl⟩ := h
  have hdiv : (a * k + a - 1) / a = k := by
    rw [Nat.add_sub_assoc ha, Nat.mul_add_div ha, Nat.div_eq_of_lt (by omega), Nat.add_zero]
  rw [align, hdiv, Nat.mul_comm]

theorem le_align (ha : 0 < a) (x : ℕ) : x ≤ align x a := by
  have hmod := Nat.mod_lt (x + a - 1) ha
  have hsplit := Nat.div_add_mod' (x + a - 1) a
  rw [align]
  omega

theorem align_lt (ha : 0 < a) (x : ℕ) : align x a < x + a := by
  have hsplit := Nat.div_add_mod' (x + a - 1) a
  rw [align]
  omega

end Alignment

section Strings

/-- The characters of a string, which ends with the zero byte behind them. -/
structure CString where
  chars : List Byte
  noNul : 0#8 ∉ chars
deriving DecidableEq

namespace CString

variable {s t : CString} {buf : List Byte} {lo hi : ℕ}

@[ext] theorem ext (h : s.chars = t.chars) : s = t := by
  cases s
  cases t
  congr

def empty : CString := ⟨[], by simp⟩

instance : Inhabited CString := ⟨empty⟩

/-- The string with its end. -/
def bytes (s : CString) : List Byte := s.chars ++ [0#8]

@[simp] theorem length_bytes (s : CString) : s.bytes.length = s.chars.length + 1 := by
  simp [bytes]

/-- A character in front of a string. -/
def cons (b : Byte) (hb : b ≠ 0#8) (s : CString) : CString :=
  ⟨b :: s.chars, fun h => (List.mem_cons.mp h).elim (fun h => hb h.symm) s.noNul⟩

/-- The string that a list of bytes begins with, if it has an end. -/
def ofList : List Byte → Option CString
  | [] => none
  | b :: bs => if hb : b = 0#8 then some empty else (ofList bs).map (cons b hb)

theorem ofList_eq_some {l : List Byte} : ofList l = some s ↔ s.bytes <+: l := by
  induction l generalizing s with
  | nil => simp [ofList, bytes]
  | cons b l ih =>
    rw [ofList]
    split
    · next hb =>
      subst hb
      constructor
      · intro h
        obtain rfl := Option.some.inj h
        exact ⟨l, rfl⟩
      · rintro ⟨post, h⟩
        obtain ⟨chars, noNul⟩ := s
        cases chars with
        | nil => rfl
        | cons c chars =>
          have hc : c = 0#8 := (List.cons.inj h).1
          exact absurd (hc ▸ List.mem_cons_self) noNul
    · next hb =>
      rw [Option.map_eq_some_iff]
      constructor
      · rintro ⟨t, ht, rfl⟩
        obtain ⟨post, rfl⟩ := ih.mp ht
        exact ⟨post, rfl⟩
      · rintro ⟨post, h⟩
        obtain ⟨chars, noNul⟩ := s
        cases chars with
        | nil => exact absurd (List.cons.inj h).1.symm hb
        | cons c chars =>
          obtain ⟨rfl, rfl⟩ := List.cons.inj h
          have hchars : 0#8 ∉ chars := fun h => noNul (List.mem_cons_of_mem _ h)
          exact ⟨⟨chars, hchars⟩, ih.mpr ⟨post, rfl⟩, rfl⟩

/-- The string that begins at `lo` and ends below `hi`. -/
def scan (buf : List Byte) (lo hi : ℕ) : Option CString := ofList (slice buf lo (hi - lo))

theorem scan_of_hasAt (h : HasAt buf lo s.bytes) (hhi : lo + s.bytes.length ≤ hi) :
    scan buf lo hi = some s := by
  obtain ⟨pre, post, rfl, rfl⟩ := h
  refine ofList_eq_some.mpr ⟨post.take (hi - pre.length - s.bytes.length), ?_⟩
  have htake : s.bytes.take (hi - pre.length) = s.bytes := List.take_of_length_le (by omega)
  rw [slice, List.drop_left, List.take_append, htake]

end CString

end Strings

end PynqPrio.Formats
